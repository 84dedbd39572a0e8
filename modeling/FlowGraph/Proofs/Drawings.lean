import FlowGraph.Graph.Dot
import FlowGraph.Proofs.Vertices
import Mathlib.Data.List.Forall2

/-! What a drawing tells. The text of a drawing is read from the left. A quoted
text ends at the first quote that no backslash escapes, a number ends before the
first character that is no digit, and the character after the number tells a
statement about a node from one about an edge. So two graphs with the same text
agree in all that the text shows: the role, the successors and the display of
every vertex. -/
namespace FlowGraph

/-- A drawing shows the same of two vertices. -/
structure Vertex.LooksLike (v w : Vertex) : Prop where
  role : v.role = w.role
  succs : v.succs = w.succs
  display : v.display = w.display

theorem Vertex.looksLike_iff {v w : Vertex} :
    v.LooksLike w ↔ v.role = w.role ∧ v.succs = w.succs ∧ v.display = w.display :=
  ⟨fun alike => ⟨alike.role, alike.succs, alike.display⟩, fun ⟨role, succs, display⟩ =>
    ⟨role, succs, display⟩⟩

instance (v w : Vertex) : Decidable (v.LooksLike w) := decidable_of_iff' _ Vertex.looksLike_iff

/-- A drawing shows the same of two graphs: they have equally many nodes, and the
same is shown of each node. -/
structure Graph.LooksLike (g h : Graph) : Prop where
  size : g.size = h.size
  vertices : ∀ n v w, g.get? n = some v → h.get? n = some w → v.LooksLike w

theorem Graph.looksLike_iff_forall₂ {g h : Graph} (small : g.size ≤ Key.count 32) :
    g.LooksLike h ↔ List.Forall₂ Vertex.LooksLike g.vertices.values h.vertices.values := by
  have read : ∀ (f : Graph) {i : Nat}, i < Key.count 32 →
      f.get? (Node.ofIndex i) = f.vertices.values[i]? := by
    intro f i inside
    rw [Table.getElem?_values, Graph.get?, Table.get?, Node.ofIndex, Key.index_ofIndex_of_lt inside]
  rw [List.forall₂_iff_get]
  constructor
  · intro alike
    refine ⟨alike.size, fun i hg hh => ?_⟩
    have inside : i < Key.count 32 := Nat.lt_of_lt_of_le hg small
    apply alike.vertices (Node.ofIndex i)
    · rw [read g inside, List.getElem?_eq_getElem hg, List.get_eq_getElem]
    · rw [read h inside, List.getElem?_eq_getElem hh, List.get_eq_getElem]
  · rintro ⟨size, alike⟩
    refine ⟨size, fun n v w hv hw => ?_⟩
    rw [Graph.get?, Table.get?, ← Table.getElem?_values] at hv hw
    obtain ⟨hg, rfl⟩ := List.getElem?_eq_some_iff.mp hv
    obtain ⟨hh, rfl⟩ := List.getElem?_eq_some_iff.mp hw
    exact alike n.index hg hh

namespace Dot

/-! Quoted text. -/

theorem escapeChar_cancel {c d : Char} {a b : List Char}
    (same : escapeChar c ++ a = escapeChar d ++ b) : c = d ∧ a = b := by
  unfold escapeChar at same
  split at same <;> split at same <;> grind

theorem escapeChar_ne_quote (c : Char) (a b : List Char) : escapeChar c ++ a ≠ '"' :: b := by
  unfold escapeChar
  split <;> simp_all

/-- Escaped text ends at the first quote that is not part of it. -/
theorem escape_cancel {s t a b : List Char}
    (same : s.flatMap escapeChar ++ '"' :: a = t.flatMap escapeChar ++ '"' :: b) :
    s = t ∧ a = b := by
  induction s generalizing t with
  | nil =>
      cases t with
      | nil => exact ⟨rfl, (List.cons.inj same).2⟩
      | cons d t =>
          rw [List.flatMap_cons, List.append_assoc] at same
          exact absurd same.symm (escapeChar_ne_quote d _ _)
  | cons c s ih =>
      rw [List.flatMap_cons, List.append_assoc] at same
      cases t with
      | nil => exact absurd same (escapeChar_ne_quote c _ _)
      | cons d t =>
          rw [List.flatMap_cons, List.append_assoc] at same
          obtain ⟨rfl, rest⟩ := escapeChar_cancel same
          obtain ⟨rfl, tail⟩ := ih rest
          exact ⟨rfl, tail⟩

theorem flatMap_intercalate (f : Char → List Char) (sep : List Char) (parts : List (List Char)) :
    (sep.intercalate parts).flatMap f =
      (sep.flatMap f).intercalate (parts.map fun part => part.flatMap f) := by
  induction parts with
  | nil => rfl
  | cons part parts ih =>
      by_cases last : parts = []
      · subst last
        simp
      · rw [List.intercalate_cons_of_ne_nil last, List.map_cons,
          List.intercalate_cons_of_ne_nil (by simpa using last), List.flatMap_append,
          List.flatMap_append, ih]

/-- What the caption of a vertex says before it is escaped. -/
def legend (v : Vertex) : List Char :=
  match v.role with
  | .enter | .exit => v.display.toList
  | .block => v.display.toList ++ ['\n']

/-- Each line of a caption was escaped on its own, which is as if all were
escaped as one text. -/
theorem caption_eq (v : Vertex) : caption v = (legend v).flatMap escapeChar := by
  obtain ⟨role, instructions, preds, succs⟩ := v
  cases role with
  | enter => exact (by decide : "enter".toList = "enter".toList.flatMap escapeChar)
  | exit => exact (by decide : "exit".toList = "exit".toList.flatMap escapeChar)
  | block =>
      show lineEnd.intercalate (instructions.map fun i => escape i.display) ++ lineEnd =
        (("\n".intercalate (instructions.map (·.display))).toList ++ ['\n']).flatMap escapeChar
      rw [String.toList_intercalate, List.flatMap_append, flatMap_intercalate, List.map_map,
        List.map_map]
      rfl

/-- The role of the vertex with a given caption. Only the caption of a block ends
with the end of a line. -/
def roleOf (legend : List Char) : Role :=
  if legend.getLast? = some '\n' then .block
  else if legend = "enter".toList then .enter
  else .exit

theorem roleOf_legend (v : Vertex) : roleOf (legend v) = v.role := by
  obtain ⟨role, instructions, preds, succs⟩ := v
  cases role with
  | enter => exact (by decide : roleOf "enter".toList = .enter)
  | exit => exact (by decide : roleOf "exit".toList = .exit)
  | block => exact if_pos List.getLast?_concat

theorem legend_inj_iff {v w : Vertex} :
    legend v = legend w ↔ v.role = w.role ∧ v.display = w.display := by
  constructor
  · intro same
    have role : v.role = w.role := by rw [← roleOf_legend, same, roleOf_legend]
    refine ⟨role, String.toList_inj.mp ?_⟩
    unfold legend at same
    rw [role] at same
    cases shown : w.role with
    | enter => simpa only [shown] using same
    | exit => simpa only [shown] using same
    | block => simpa only [shown, List.append_cancel_right_eq] using same
  · rintro ⟨role, display⟩
    unfold legend
    rw [role, display]

/-! Numbers. -/

/-- A number ends before the first character that is no digit. -/
theorem decimal_cancel {m n : Nat} {x y : Char} {a b : List Char} (hx : x.isDigit = false)
    (hy : y.isDigit = false) (same : decimal m ++ x :: a = decimal n ++ y :: b) :
    m = n ∧ x = y ∧ a = b := by
  have digits : ∀ {k : Nat} {z : Char} (c : List Char), z.isDigit = false →
      (decimal k ++ z :: c).takeWhile Char.isDigit = decimal k := by
    intro k z c hz
    have all : ∀ d ∈ decimal k, d.isDigit = true := fun d member =>
      Nat.isDigit_of_mem_toDigits (by decide) (by decide) member
    rw [List.takeWhile_append_of_pos all, List.takeWhile_cons_of_neg (by simp [hz]),
      List.append_nil]
  have numbers : decimal m = decimal n := by
    rw [← digits a hx, same, digits b hy]
  have equal : m = n := by
    have read := congrArg (fun ds => Nat.ofDigitChars 10 ds 0) numbers
    simpa [decimal] using read
  rw [numbers] at same
  exact ⟨equal, List.cons.inj (List.append_cancel_left same)⟩

/-! Statements. -/

/-- The statements of vertices that are numbered on from `k`, up to the end. -/
def drawnFrom : (k : Nat) → List Vertex → List Char
  | _, [] => "\x7d\n".toList
  | k, v :: vs => statements (Node.ofIndex k) v ++ drawnFrom (k + 1) vs

theorem flatMap_statements (vs : List Vertex) (k : Nat) :
    (((vs.zipIdx k).map fun p => (Key.ofIndex 32 p.2, p.1)).flatMap
      fun p => statements p.1 p.2) ++ "\x7d\n".toList = drawnFrom k vs := by
  induction vs generalizing k with
  | nil => rfl
  | cons v vs ih =>
      rw [List.zipIdx_cons, List.map_cons, List.flatMap_cons, List.append_assoc, ih]
      rfl

theorem digraph_eq (title : List Char) (g : Graph) :
    digraph title g =
      "digraph ".toList ++ (title ++ ("\n\x7b\n\tnode[shape=\"rect\"];\n".toList ++
        drawnFrom 0 g.vertices.values)) := by
  rw [← flatMap_statements, ← List.append_assoc, ← List.append_assoc, ← List.append_assoc]
  exact rfl

theorem edgeStatement_eq (m n : Node) (rest : List Char) :
    edgeStatement m n ++ rest =
      '\t' :: (decimal m.index ++ ' ' :: '-' :: '>' :: ' ' ::
        (decimal n.index ++ ';' :: '\n' :: rest)) := by
  show '\t' :: decimal m.index ++ [' ', '-', '>', ' '] ++ decimal n.index ++ [';', '\n'] ++ rest = _
  simp

theorem statements_eq (n : Node) (v : Vertex) (rest : List Char) :
    statements n v ++ rest =
      '\t' :: (decimal n.index ++ '[' :: 'l' :: 'a' :: 'b' :: 'e' :: 'l' :: '=' :: '"' ::
        ((legend v).flatMap escapeChar ++ '"' :: ']' :: ';' :: '\n' ::
          (v.succs.toList.flatMap (edgeStatement n) ++ rest))) := by
  rw [← caption_eq]
  show '\t' :: decimal n.index ++ ['[', 'l', 'a', 'b', 'e', 'l', '=', '"'] ++ caption v ++
    ['"', ']', ';', '\n'] ++ v.succs.toList.flatMap (edgeStatement n) ++ rest = _
  simp

/-- No edge is left when the statements of the next vertex or the end come. -/
theorem drawnFrom_ne_edge (k : Nat) (vs : List Vertex) (m n : Node) (rest : List Char) :
    drawnFrom k vs ≠ edgeStatement m n ++ rest := by
  intro same
  rw [edgeStatement_eq] at same
  cases vs with
  | nil => cases same
  | cons v vs =>
      rw [drawnFrom, statements_eq] at same
      obtain ⟨-, other, -⟩ := decimal_cancel (by decide) (by decide) (List.cons.inj same).2
      cases other

theorem edges_cancel {n : Node} {es fs : List Node} {k : Nat} {vs ws : List Vertex}
    (same : es.flatMap (edgeStatement n) ++ drawnFrom k vs =
      fs.flatMap (edgeStatement n) ++ drawnFrom k ws) :
    es = fs ∧ drawnFrom k vs = drawnFrom k ws := by
  induction es generalizing fs with
  | nil =>
      cases fs with
      | nil => exact ⟨rfl, same⟩
      | cons f fs =>
          rw [List.flatMap_cons, List.append_assoc] at same
          exact absurd same (drawnFrom_ne_edge k vs n f _)
  | cons e es ih =>
      rw [List.flatMap_cons, List.append_assoc] at same
      cases fs with
      | nil => exact absurd same.symm (drawnFrom_ne_edge k ws n e _)
      | cons f fs =>
          rw [List.flatMap_cons, List.append_assoc, edgeStatement_eq, edgeStatement_eq] at same
          have ends := List.append_cancel_left (List.cons.inj same).2
          simp only [List.cons.injEq, true_and] at ends
          obtain ⟨number, -, tail⟩ := decimal_cancel (by decide) (by decide) ends
          obtain ⟨rfl, rest⟩ := ih (List.cons.inj tail).2
          exact ⟨congrArg (· :: es) (Key.ext number), rest⟩

/-- The statements of vertices that look alike are the same, and those of others
are not. -/
theorem drawnFrom_eq_iff {k : Nat} {vs ws : List Vertex} :
    drawnFrom k vs = drawnFrom k ws ↔ List.Forall₂ Vertex.LooksLike vs ws := by
  constructor
  · intro same
    induction vs generalizing k ws with
    | nil =>
        cases ws with
        | nil => exact .nil
        | cons w ws =>
            rw [drawnFrom, drawnFrom, statements_eq] at same
            cases same
    | cons v vs ih =>
        cases ws with
        | nil =>
            rw [drawnFrom, drawnFrom, statements_eq] at same
            cases same
        | cons w ws =>
            rw [drawnFrom, drawnFrom, statements_eq, statements_eq] at same
            have label := List.append_cancel_left (List.cons.inj same).2
            simp only [List.cons.injEq, true_and] at label
            obtain ⟨captions, after⟩ := escape_cancel label
            simp only [List.cons.injEq, true_and] at after
            obtain ⟨succs, rest⟩ := edges_cancel after
            obtain ⟨role, display⟩ := legend_inj_iff.mp captions
            have sets : v.succs = w.succs := KeySet.eq_of_mem_iff fun m => by
              rw [← KeySet.mem_toList, succs, KeySet.mem_toList]
            exact .cons ⟨role, sets, display⟩ (ih rest)
  · intro alike
    induction alike generalizing k with
    | nil => rfl
    | cons first _ ih =>
        rw [drawnFrom, drawnFrom, statements_eq, statements_eq, ih, first.succs,
          legend_inj_iff.mpr ⟨first.role, first.display⟩]

/-- Under the same title the same is drawn of graphs that look alike, and under
their names the same is drawn of methods only if the names agree as well. -/
theorem drawings_agree_iff {g h : Graph} (small : g.size ≤ Key.count 32) :
    (∀ m n, renderMethod m g = renderMethod n h ↔ m = n ∧ g.LooksLike h) ∧
      (render g = render h ↔ g.LooksLike h) := by
  rw [Graph.looksLike_iff_forall₂ small]
  constructor
  · intro m n
    rw [renderMethod, renderMethod, String.ofList_inj, digraph_eq, digraph_eq,
      List.append_cancel_left_eq, ← drawnFrom_eq_iff (k := 0)]
    constructor
    · intro same
      have quoted : escape m ++ '"' :: ("\n\x7b\n\tnode[shape=\"rect\"];\n".toList ++
            drawnFrom 0 g.vertices.values) =
          escape n ++ '"' :: ("\n\x7b\n\tnode[shape=\"rect\"];\n".toList ++
            drawnFrom 0 h.vertices.values) := by
        simpa using same
      obtain ⟨names, rest⟩ := escape_cancel quoted
      exact ⟨String.toList_inj.mp names, List.append_cancel_left rest⟩
    · rintro ⟨rfl, same⟩
      rw [same]
  · rw [render, render, String.ofList_inj, digraph_eq, digraph_eq, List.append_cancel_left_eq,
      List.append_cancel_left_eq, List.append_cancel_left_eq, drawnFrom_eq_iff]

/-- A block whose second instruction has the text of an edge. -/
def sampleLines : Graph :=
  ⟨.ofList [{ role := .enter, succs := .ofList [Node.ofIndex 2] }, { role := .exit },
    { role := .block, instructions := [⟨none, .plain "x"⟩, ⟨none, .plain "\"];\n\t2 -> 1;"⟩] }]⟩

/-- The same text in one instruction that spans three lines. -/
def sampleLine : Graph :=
  ⟨.ofList [{ role := .enter, succs := .ofList [Node.ofIndex 2] }, { role := .exit },
    { role := .block, preds := .ofList [Node.enter],
      instructions := [⟨none, .plain "x\n\"];\n\t2 -> 1;"⟩] }]⟩

theorem drawings_of_samples :
    sampleLines.size ≤ Key.count 32 ∧ render sampleLines = render sampleLine ∧
      renderMethod "m" sampleLines = renderMethod "m" sampleLine ∧
      renderMethod "m" sampleLines ≠ renderMethod "m\"" sampleLine := by
  have small : sampleLines.size ≤ Key.count 32 := by decide
  have alike : sampleLines.LooksLike sampleLine :=
    (Graph.looksLike_iff_forall₂ small).mpr (by decide +kernel)
  obtain ⟨named, plain⟩ := @drawings_agree_iff sampleLines sampleLine small
  refine ⟨small, plain.mpr alike, (named _ _).mpr ⟨rfl, alike⟩, fun same => ?_⟩
  exact absurd ((named _ _).mp same).1 (by decide)

end Dot
end FlowGraph
