import FlowGraph.Proofs.LabelShape
import FlowGraph.Proofs.Spellings
import Mathlib.Data.List.TakeWhile

/-! Plain text on a line. The writer gives mistaken text one more group, which
rules out every shape but that of a label. A label is left over exactly when the
text starts with a keyword whose blank becomes the group, so that a colon after
the next name ends a written label. -/
namespace FlowGraph.Listing
open FlowGraph.Text

theorem isWrittenName_digits {digits : List Char} (hex : ∀ x ∈ digits, isHexDigit x = true)
    (rest : List Char) :
    isWrittenName .digits (digits ++ '}' :: rest) = isWrittenName .piece rest := by
  induction digits with
  | nil => rfl
  | cons c digits ih =>
      obtain ⟨digit, others⟩ := List.forall_mem_cons.mp hex
      have open_ : c ≠ '}' := ne_of_class digit (by decide)
      rw [List.cons_append, isWrittenName, if_neg open_, digit, ih others]
      rfl

theorem isWrittenName_group (c : Char) (rest : List Char) :
    isWrittenName .piece (group c ++ rest) = isWrittenName .piece rest := by
  have shape : group c ++ rest = '\\' :: '{' :: (Nat.toDigits 16 c.toNat ++ '}' :: rest) := by
    simp [group]
  rw [shape]
  exact isWrittenName_digits (fun _ => isHexDigit_of_mem_toDigits) rest

theorem isWrittenName_single_group (c : Char) : isWrittenName .piece (group c) = true := by
  have whole := isWrittenName_group c []
  rwa [List.append_nil] at whole

/-! Quiet text is written as a name; a loud character stands for itself and ends one. -/

def Quiet (policy : Nat → Char → Bool) (i : Nat) (cs : List Char) : Prop :=
  ∀ p ∈ cs.zipIdx i, isNameChar p.1 = true ∨ policy p.2 p.1 = true

structure Loud (policy : Nat → Char → Bool) (i : Nat) (c : Char) : Prop where
  unnamed : isNameChar c = false
  kept : policy i c = false

section
variable {policy : Nat → Char → Bool} {i : Nat}

theorem quiet_cons {c : Char} {cs : List Char} :
    Quiet policy i (c :: cs) ↔
      (isNameChar c = true ∨ policy i c = true) ∧ Quiet policy (i + 1) cs := by
  unfold Quiet
  rw [List.zipIdx_cons, List.forall_mem_cons]

theorem quiet_of_named {cs : List Char} (named : ∀ c ∈ cs, isNameChar c = true) :
    Quiet policy i cs := by
  intro p member
  exact .inl (named p.1 (List.fst_mem_of_mem_zipIdx member))

theorem quiet_or_loud (policy : Nat → Char → Bool) (i : Nat) (cs : List Char) :
    Quiet policy i cs ∨
      ∃ front c back, cs = front ++ c :: back ∧ Quiet policy i front ∧
        Loud policy (i + front.length) c := by
  induction cs generalizing i with
  | nil => exact .inl (by simp [Quiet])
  | cons c cs ih =>
      by_cases soft : isNameChar c = true ∨ policy i c = true
      · obtain quiet | ⟨front, d, back, shape, quiet, loud⟩ := ih (i + 1)
        · exact .inl (quiet_cons.mpr ⟨soft, quiet⟩)
        · refine .inr ⟨c :: front, d, back, by rw [shape]; rfl, quiet_cons.mpr ⟨soft, quiet⟩, ?_⟩
          rwa [List.length_cons, Nat.add_comm front.length, ← Nat.add_assoc]
      · simp only [not_or, Bool.not_eq_true] at soft
        exact .inr ⟨[], c, cs, rfl, by simp [Quiet], soft.1, soft.2⟩

theorem Quiet.written {cs : List Char} (quiet : Quiet policy i cs) :
    isWrittenName .piece (escapeFrom policy i cs) = true := by
  induction cs generalizing i with
  | nil => rfl
  | cons c cs ih =>
      obtain ⟨soft, others⟩ := quiet_cons.mp quiet
      rw [escapeFrom_cons]
      split
      · rw [isWrittenName_group]
        exact ih others
      · rename_i kept
        rw [List.singleton_append, isWrittenName, if_pos (soft.resolve_right kept)]
        exact ih others

theorem Loud.escapeFrom {cs front back : List Char} {c : Char}
    (loud : Loud policy (i + front.length) c) (shape : cs = front ++ c :: back) :
    escapeFrom policy i cs =
      escapeFrom policy i front ++ c :: escapeFrom policy (i + front.length + 1) back := by
  rw [shape, escapeFrom_append, escapeFrom_cons, if_neg (by simp [loud.kept]),
    List.singleton_append]

end

/-! Where the one more group goes. -/

/-- The policy of free text of the length of `text`. -/
def textPolicy (text : List Char) : Nat → Char → Bool := needsGroup (text.length - 1)

theorem escapeText_of_ne_nil {text : List Char} (filled : text ≠ []) :
    escapeText text = escapeFrom (textPolicy text) 0 text := by
  rw [escapeText, escapeWith_of_ne_nil _ filled]
  rfl

theorem findIdx?_of_quiet {text cs : List Char} (quiet : Quiet (textPolicy text) 0 cs) :
    cs.zipIdx.findIdx? (fun (c, i) => !isNameChar c && !needsGroup (text.length - 1) i c) =
      none := by
  apply List.findIdx?_eq_none_iff.mpr
  intro p member
  obtain named | picked := quiet p member
  · simp [named]
  · simp only [textPolicy] at picked
    simp [picked]

theorem extraGroup_of_quiet {text : List Char} (quiet : Quiet (textPolicy text) 0 text) :
    extraGroup text = 0 := by
  rw [extraGroup, findIdx?_of_quiet quiet]
  rfl

theorem extraGroup_of_loud {text front back : List Char} {c : Char}
    (shape : text = front ++ c :: back) (quiet : Quiet (textPolicy text) 0 front)
    (loud : Loud (textPolicy text) front.length c) : extraGroup text = front.length := by
  have kept : needsGroup (text.length - 1) front.length c = false := loud.kept
  have split :
      text.zipIdx = front.zipIdx ++ (c, front.length) :: back.zipIdx (front.length + 1) := by
    rw [shape, List.zipIdx_append, List.zipIdx_cons, Nat.zero_add]
  rw [extraGroup, split, List.findIdx?_append, findIdx?_of_quiet quiet, List.findIdx?_cons]
  simp [loud.unnamed, kept]

theorem escapePlain_at {text front back : List Char} {c : Char}
    (mistaken : isMistaken (escapeText text) = true) (shape : text = front ++ c :: back)
    (place : extraGroup text = front.length) :
    escapePlain text =
      escapeFrom (textPolicy text) 0 front ++
        (group c ++ escapeFrom (textPolicy text) (front.length + 1) back) := by
  have filled : text ≠ [] := by simp [shape]
  have elsewhere : ∀ k d, k ≠ front.length →
      (k == front.length || needsGroup (text.length - 1) k d) = textPolicy text k d := by
    intro k d other
    simp [other, textPolicy]
  rw [escapePlain, if_pos mistaken, escapeWith_of_ne_nil _ filled, place]
  conv => lhs; rw [shape]
  rw [escapeFrom_append, escapeFrom_cons, if_pos (by simp), Nat.zero_add, ← shape]
  congr 1
  · apply escapeFrom_congr
    intro k d _ before
    exact elsewhere k d (by omega)
  · congr 1
    apply escapeFrom_congr
    intro k d after _
    exact elsewhere k d (by omega)

/-- Mistaken text is cut at the one more group. What stands before it is
written as a name. -/
theorem escapePlain_split {text : List Char} (mistaken : isMistaken (escapeText text) = true) :
    ∃ front c back, text = front ++ c :: back ∧ Quiet (textPolicy text) 0 front ∧
      (Loud (textPolicy text) front.length c ∨ Quiet (textPolicy text) (front.length + 1) back) ∧
      escapePlain text =
        escapeFrom (textPolicy text) 0 front ++
          (group c ++ escapeFrom (textPolicy text) (front.length + 1) back) := by
  obtain quiet | ⟨front, c, back, shape, quiet, loud⟩ := quiet_or_loud (textPolicy text) 0 text
  · have filled : text ≠ [] := by
      intro empty
      rw [empty] at mistaken
      exact absurd mistaken (by decide)
    obtain ⟨c, back, shape⟩ := List.exists_cons_of_ne_nil filled
    have place : extraGroup text = ([] : List Char).length := extraGroup_of_quiet quiet
    have others : Quiet (textPolicy text) 1 back := by
      generalize textPolicy text = policy at quiet ⊢
      rw [shape] at quiet
      exact (quiet_cons.mp quiet).2
    exact ⟨[], c, back, shape, by simp [Quiet], .inr others, escapePlain_at mistaken shape place⟩
  · rw [Nat.zero_add] at loud
    exact ⟨front, c, back, shape, quiet, .inl loud,
      escapePlain_at mistaken shape (extraGroup_of_loud shape quiet loud)⟩

/-! What the one more group rules out. -/

def keywords : List String := ["goto", "if", "return"]

theorem isNameChar_of_mem_keyword {word : String} (key : word ∈ keywords) :
    ∀ c ∈ word.toList, isNameChar c = true := by
  have named : keywords.all (fun word => word.toList.all isNameChar) = true := by decide
  exact List.all_eq_true.mp (List.all_eq_true.mp named word key)

theorem length_keyword_pos {word : String} (key : word ∈ keywords) : 0 < word.toList.length := by
  revert word
  decide

theorem unescape_keyword {word : String} (key : word ∈ keywords) :
    unescape word.toList = word.toList := by
  revert word
  decide

theorem afterWord?_eq_some_iff {word : String} {cs rest : List Char} :
    afterWord? word cs = some rest ↔ cs = word.toList ++ rest ∧ atWordEnd rest = true := by
  unfold afterWord?
  cases found : after? word.toList cs with
  | none =>
      have absent : cs ≠ word.toList ++ rest := by
        intro shape
        rw [after?_eq_some_iff.mpr shape] at found
        cases found
      simp [absent]
  | some tail =>
      rw [after?_eq_some_iff.mp found]
      by_cases ended : atWordEnd tail = true
      · simp only [ended, if_true, Option.some.injEq, List.append_cancel_left_eq]
        constructor
        · intro same
          exact ⟨same, same ▸ ended⟩
        · exact And.left
      · simp only [ended, List.append_cancel_left_eq]
        constructor
        · intro chosen
          cases chosen
        · rintro ⟨rfl, ended'⟩
          exact absurd ended' ended

theorem isMistaken_iff {line : List Char} :
    isMistaken line = true ↔
      line = ['}'] ∨ ['/', '/'] <+: line ∨
        (∃ word ∈ keywords, ∃ rest, afterWord? word line = some rest) ∨
        startsWithLabel line = true := by
  simp only [isMistaken, Bool.or_eq_true, beq_iff_eq, List.isPrefixOf_iff_prefix, keywords,
    List.mem_cons, List.not_mem_nil, or_false, exists_eq_or_imp, exists_eq_left,
    Option.isSome_iff_exists]
  simp only [or_assoc]

theorem not_comment_of_marks {lead : List Char} (filled : lead ≠ [])
    (marks : ∀ x ∈ lead, isNameMark x = true) (tail : List Char) :
    ¬ ['/', '/'] <+: lead ++ tail := by
  rintro ⟨rest, same⟩
  obtain ⟨c, others, rfl⟩ := List.exists_cons_of_ne_nil filled
  simp only [List.cons_append, List.cons.injEq] at same
  have mark := marks c List.mem_cons_self
  rw [← same.1] at mark
  exact absurd mark (by decide)

/-- Name marks at the start of a line that starts with a keyword are part of it. -/
theorem keyword_of_marks {lead tail rest : List Char} {word : String}
    (marks : ∀ x ∈ lead, isNameMark x = true) (found : afterWord? word (lead ++ tail) = some rest) :
    ∃ more, word.toList = lead ++ more ∧ tail = more ++ rest := by
  obtain ⟨shape, ended⟩ := afterWord?_eq_some_iff.mp found
  obtain ⟨more, same, tail_eq⟩ | ⟨more, same, rest_eq⟩ := List.append_eq_append_iff.mp shape
  · exact ⟨more, same, tail_eq⟩
  · cases more with
    | nil =>
        rw [List.append_nil] at same
        exact ⟨[], by rw [same, List.append_nil], rest_eq.symm⟩
    | cons x more =>
        have mark := marks x (by simp [same])
        rw [rest_eq] at ended
        have blank : isBlank x = true := ended
        rw [isBlank_of_isNameMark mark] at blank
        cases blank

theorem afterWord?_of_marks {lead : List Char} (marks : ∀ x ∈ lead, isNameMark x = true)
    (escaped : '\\' ∈ lead) (tail : List Char) {word : String} (key : word ∈ keywords) :
    afterWord? word (lead ++ tail) = none := by
  cases found : afterWord? word (lead ++ tail) with
  | none => rfl
  | some rest =>
      obtain ⟨more, same, _⟩ := keyword_of_marks marks found
      have named := isNameChar_of_mem_keyword key '\\' (by simp [same, escaped])
      exact absurd named (by decide)

theorem isMistaken_of_marks {lead : List Char} (marks : ∀ x ∈ lead, isNameMark x = true)
    (escaped : '\\' ∈ lead) {tail : List Char} (mistaken : isMistaken (lead ++ tail) = true) :
    startsWithLabel (lead ++ tail) = true := by
  obtain brace | comment | ⟨word, key, rest, found⟩ | labelled := isMistaken_iff.mp mistaken
  · have member : '\\' ∈ lead ++ tail := List.mem_append_left tail escaped
    rw [brace] at member
    exact absurd member (by decide)
  · exact absurd comment (not_comment_of_marks (List.ne_nil_of_mem escaped) marks tail)
  · rw [afterWord?_of_marks marks escaped tail key] at found
    cases found
  · exact labelled

/-! Fragile text. -/

/-- Characters that a written name holds, as themselves or as groups. -/
def hidesInName (c : Char) : Bool := isNameChar c || c == '\\' || isControl c

/-- Whether a colon before this text still ends a label once the text is written
at the end of a line: there is nothing, or a blank that needs no group. -/
def setsOff : List Char → Bool
  | [] => true
  | [_] => false
  | c :: _ :: _ => isBlank c && !isControl c

/-- Whether a text, written to the end of a line, completes a label that has begun. -/
def completesLabel (text : List Char) : Bool :=
  match text.dropWhile hidesInName with
  | ':' :: tail => setsOff tail
  | _ => false

/-- Whether plain text is written as a line that starts with a label: a keyword,
one blank, and what completes a label. -/
def isFragile (text : List Char) : Bool :=
  keywords.any fun word =>
    match after? word.toList text with
    | some (gap :: rest) => isBlank gap && !isControl gap && completesLabel rest
    | _ => false

theorem isFragile_iff {text : List Char} :
    isFragile text = true ↔
      ∃ word ∈ keywords, ∃ gap rest, text = word.toList ++ gap :: rest ∧
        isBlank gap = true ∧ isControl gap = false ∧ completesLabel rest = true := by
  simp only [isFragile, List.any_eq_true]
  constructor
  · rintro ⟨word, key, fits⟩
    split at fits
    · rename_i gap rest found
      simp only [Bool.and_eq_true, Bool.not_eq_true'] at fits
      exact ⟨word, key, gap, rest, after?_eq_some_iff.mp found, fits.1.1, fits.1.2, fits.2⟩
    · cases fits
  · rintro ⟨word, key, gap, rest, shape, blank, printable, completes⟩
    refine ⟨word, key, ?_⟩
    rw [after?_eq_some_iff.mpr shape]
    simp [blank, printable, completes]

theorem completesLabel_iff {text : List Char} :
    completesLabel text = true ↔
      ∃ name tail, text = name ++ ':' :: tail ∧ (∀ c ∈ name, hidesInName c = true) ∧
        setsOff tail = true := by
  constructor
  · intro completes
    rw [completesLabel] at completes
    split at completes
    · next tail behind =>
        refine ⟨text.takeWhile hidesInName, tail, ?_, ?_, completes⟩
        · rw [← behind, List.takeWhile_append_dropWhile]
        · intro c member
          exact List.mem_takeWhile_imp member
    · cases completes
  · rintro ⟨name, tail, rfl, hidden, off⟩
    rw [completesLabel, List.dropWhile_append_of_pos hidden, List.dropWhile_cons_of_neg (by decide)]
    exact off

theorem atWordEnd_group (c : Char) (rest : List Char) : atWordEnd (group c ++ rest) = false := by
  show isBlank '\\' = false
  decide

theorem needsGroup_inner {last i : Nat} (inner : 0 < i) (before : i ≠ last) (c : Char) :
    needsGroup last i c = (c == '\\' || isControl c) := by
  have start : (i == 0) = false := by simp only [beq_eq_false_iff_ne]; omega
  have stop : (i == last) = false := by simp [before]
  simp [needsGroup, start, stop]

theorem atWordEnd_escapeFrom {last i : Nat} {cs : List Char} (inner : 0 < i)
    (ends : i + cs.length = last + 1) :
    atWordEnd (escapeFrom (needsGroup last) i cs) = setsOff cs := by
  match cs with
  | [] => rfl
  | [c] =>
      have place : i = last := by simpa using ends
      rw [escapeFrom_cons]
      by_cases picked : needsGroup last i c = true
      · rw [if_pos picked, atWordEnd_group]
        rfl
      · rw [if_neg picked]
        simp only [needsGroup, place, Bool.or_eq_true, not_or] at picked
        simpa [atWordEnd, setsOff] using picked.2
  | c :: d :: ds =>
      have before : i ≠ last := by
        simp only [List.length_cons] at ends
        omega
      rw [escapeFrom_cons, needsGroup_inner inner before]
      by_cases picked : (c == '\\' || isControl c) = true
      · rw [if_pos picked, atWordEnd_group]
        simp only [Bool.or_eq_true, beq_iff_eq] at picked
        obtain rfl | control := picked
        · rfl
        · simp [setsOff, control]
      · rw [if_neg picked]
        simp only [Bool.or_eq_true, not_or, Bool.not_eq_true] at picked
        simp [setsOff, atWordEnd, picked.2]

theorem completesLabel_cons_of_hidden {c : Char} (hidden : hidesInName c = true) (cs : List Char) :
    completesLabel (c :: cs) = completesLabel cs := by
  rw [completesLabel, List.dropWhile_cons_of_pos hidden, completesLabel]

theorem completesLabel_cons_of_not_hidden {c : Char} (shown : hidesInName c = false)
    (cs : List Char) : completesLabel (c :: cs) = (c == ':' && setsOff cs) := by
  rw [completesLabel, List.dropWhile_cons_of_neg (by simp [shown])]
  by_cases colon : c = ':'
  · subst colon
    rfl
  · simp [colon]

theorem colonFollows_escapeFrom {last i : Nat} {cs : List Char} (inner : 0 < i)
    (ends : i + cs.length = last + 1) :
    colonFollows (escapeFrom (needsGroup last) i cs) = completesLabel cs := by
  induction cs generalizing i with
  | nil => rfl
  | cons c cs ih =>
      simp only [List.length_cons] at ends
      have later := ih (Nat.succ_pos i) (by omega)
      have skip : Quiet (needsGroup last) i [c] →
          colonFollows (escapeFrom (needsGroup last) i (c :: cs)) = completesLabel cs := by
        intro quiet
        rw [← List.singleton_append, escapeFrom_append, colonFollows_append quiet.written]
        exact later
      cases hidden : hidesInName c with
      | true =>
          rw [completesLabel_cons_of_hidden hidden]
          apply skip
          simp only [hidesInName, Bool.or_eq_true, or_assoc] at hidden
          simp only [quiet_cons, needsGroup, Bool.or_eq_true]
          exact ⟨hidden.imp_right .inl, by simp [Quiet]⟩
      | false =>
          rw [completesLabel_cons_of_not_hidden hidden]
          simp only [hidesInName, Bool.or_eq_false_iff, beq_eq_false_iff_ne] at hidden
          obtain ⟨⟨unnamed, plain⟩, printable⟩ := hidden
          by_cases picked : needsGroup last i c = true
          · -- Only the last blank of the line is picked here, and nothing follows it.
            have blank : isBlank c = true ∧ i = last := by
              simp only [needsGroup, printable, Bool.or_eq_true, Bool.and_eq_true, beq_iff_eq,
                plain, false_or, Bool.false_eq_true] at picked
              exact ⟨picked.1, picked.2.resolve_left (by omega)⟩
            have empty : cs = [] := List.length_eq_zero_iff.mp (by omega)
            have other : c ≠ ':' := ne_of_class blank.1 (by decide)
            rw [skip (quiet_cons.mpr ⟨.inr picked, by simp [Quiet]⟩), empty]
            simp [other, completesLabel]
          · rw [escapeFrom_cons, if_neg picked, List.singleton_append,
              colonFollows_cons unnamed plain, atWordEnd_escapeFrom (Nat.succ_pos i) (by omega)]

/-! Which plain text is written as a label. -/

theorem textPolicy_backslash (text : List Char) (i : Nat) : textPolicy text i '\\' = true := by
  simp [textPolicy, needsGroup]

/-- The written form of mistaken text before its one more group and with it. -/
theorem marks_of_quiet {policy : Nat → Char → Bool} {i : Nat} {front : List Char} (c : Char)
    (quiet : Quiet policy i front) :
    ∀ x ∈ escapeFrom policy i front ++ group c, isNameMark x = true := by
  intro x member
  obtain before | inside := List.mem_append.mp member
  · exact isNameMark_of_isWrittenName _ _ quiet.written x before
  · exact isNameMark_of_mem_group inside

/-- The one more group leaves no shape but that of a label. -/
theorem startsWithLabel_of_isMistaken_escapePlain {text : List Char}
    (mistaken : isMistaken (escapePlain text) = true) :
    startsWithLabel (escapePlain text) = true := by
  by_cases already : isMistaken (escapeText text) = true
  · obtain ⟨front, c, back, _, quiet, _, written⟩ := escapePlain_split already
    rw [← List.append_assoc] at written
    rw [written] at mistaken ⊢
    apply isMistaken_of_marks (marks_of_quiet c quiet) _ mistaken
    apply List.mem_append_right
    exact List.mem_cons_self
  · rw [escapePlain, if_neg already] at mistaken
    exact absurd mistaken already

/-- A mistaken line that is cut at a character no name holds, and that goes on
behind it as a label would end, starts with a keyword. -/
theorem keyword_of_mistaken {lead tail : List Char} {c : Char}
    (written : isWrittenName .piece lead = true) (unnamed : isNameChar c = false)
    (plain : c ≠ '\\') (follows : colonFollows tail = true)
    (mistaken : isMistaken (lead ++ c :: tail) = true) :
    ∃ word ∈ keywords, lead = word.toList ∧ isBlank c = true := by
  have marks := isNameMark_of_isWrittenName _ _ written
  have filled : tail ≠ [] := by
    intro empty
    rw [empty] at follows
    exact absurd follows (by decide)
  obtain brace | comment | ⟨word, key, rest, found⟩ | labelled := isMistaken_iff.mp mistaken
  · have single := congrArg List.length brace
    have counted := List.length_pos_iff.mpr filled
    simp only [List.length_append, List.length_cons, List.length_nil] at single
    omega
  · by_cases empty : lead = []
    · obtain ⟨rest, same⟩ := comment
      simp only [empty, List.cons_append, List.nil_append, List.cons.injEq] at same
      rw [← same.2, colonFollows_cons (by decide) (by decide)] at follows
      cases follows
    · exact absurd comment (not_comment_of_marks empty marks (c :: tail))
  · obtain ⟨more, same, tail_eq⟩ := keyword_of_marks marks found
    have ended := (afterWord?_eq_some_iff.mp found).2
    cases more with
    | nil =>
        rw [List.append_nil] at same
        rw [List.nil_append] at tail_eq
        rw [← tail_eq] at ended
        exact ⟨word, key, same.symm, ended⟩
    | cons x more =>
        rw [(List.cons.inj tail_eq).1, isNameChar_of_mem_keyword key x (by simp [same])] at unnamed
        cases unnamed
  · have colon := (startsWithLabel_iff.mp labelled).1
    rw [colonFollows_append written, colonFollows_cons unnamed plain, Bool.and_eq_true] at colon
    obtain ⟨x, others, shape⟩ := List.exists_cons_of_ne_nil filled
    rw [shape] at colon follows
    have blank : isBlank x = true := colon.2
    have other : (x == ':') = false := by
      simpa using ne_of_class blank (by decide : isBlank ':' = false)
    have plain : x ≠ '\\' := ne_of_class blank (by decide)
    rw [colonFollows_cons (isNameChar_of_isBlank blank) plain, other] at follows
    cases follows

theorem startsWithLabel_at {lead : List Char} (written : isWrittenName .piece lead = true)
    (c : Char) (tail : List Char) :
    startsWithLabel (lead ++ (group c ++ tail)) = colonFollows tail := by
  have opened : (lead ++ (group c ++ tail)).head? ≠ some ':' := by
    cases lead with
    | nil => simp [group]
    | cons x lead =>
        have mark := isNameMark_of_isWrittenName _ _ written x List.mem_cons_self
        simpa using ne_of_class mark (by decide : isNameMark ':' = false)
  apply Bool.eq_iff_iff.mpr
  rw [startsWithLabel_iff, colonFollows_append written,
    colonFollows_append (isWrittenName_single_group c)]
  exact and_iff_left opened

theorem isFragile_of_startsWithLabel {text : List Char}
    (labelled : startsWithLabel (escapePlain text) = true) : isFragile text = true := by
  have mistaken : isMistaken (escapeText text) = true := by
    apply Bool.of_not_eq_false
    intro fine
    rw [escapePlain, if_neg (by simp [fine])] at labelled
    rw [isMistaken_iff.mpr (.inr (.inr (.inr labelled)))] at fine
    cases fine
  obtain ⟨front, c, back, shape, quiet, rest, written⟩ := escapePlain_split mistaken
  rw [written, startsWithLabel_at quiet.written] at labelled
  obtain loud | still := rest
  · have plain : c ≠ '\\' := by
      intro same
      have kept := loud.kept
      rw [same, textPolicy_backslash] at kept
      cases kept
    have line := Loud.escapeFrom (i := 0) (by rwa [Nat.zero_add]) shape
    rw [Nat.zero_add] at line
    rw [escapeText_of_ne_nil (by simp [shape]), line] at mistaken
    obtain ⟨word, key, lead, blank⟩ :=
      keyword_of_mistaken quiet.written loud.unnamed plain labelled mistaken
    -- The written form determines the text, so the keyword stands in the text itself.
    have front_eq : front = word.toList := by
      rw [← unescape_keyword key, ← lead, unescape_escapeFrom fun k _ => textPolicy_backslash text _]
    have printable : isControl c = false := by
      have kept := loud.kept
      simp only [textPolicy, needsGroup, Bool.or_eq_false_iff] at kept
      exact kept.1.2
    have completes : completesLabel back = true := by
      rw [← labelled]
      apply (colonFollows_escapeFrom (Nat.succ_pos _) _).symm
      simp only [shape, List.length_append, List.length_cons]
      omega
    exact isFragile_iff.mpr ⟨word, key, c, back, front_eq ▸ shape, blank, printable, completes⟩
  · have silent := colonFollows_append still.written []
    rw [List.append_nil, labelled] at silent
    exact absurd silent (by decide)

theorem startsWithLabel_of_isFragile {text : List Char} (fragile : isFragile text = true) :
    startsWithLabel (escapePlain text) = true := by
  obtain ⟨word, key, gap, rest, shape, blank, printable, completes⟩ := isFragile_iff.mp fragile
  have named := isNameChar_of_mem_keyword key
  have filled : rest ≠ [] := by
    intro empty
    rw [empty] at completes
    exact absurd completes (by decide)
  have quiet : Quiet (textPolicy text) 0 word.toList := quiet_of_named named
  have loud : Loud (textPolicy text) word.toList.length gap := by
    have counted := List.length_pos_iff.mpr filled
    have before : word.toList.length ≠ text.length - 1 := by
      simp only [shape, List.length_append, List.length_cons]
      omega
    have plain : gap ≠ '\\' := ne_of_class blank (by decide)
    refine ⟨isNameChar_of_isBlank blank, ?_⟩
    rw [textPolicy, needsGroup_inner (length_keyword_pos key) before]
    simp [plain, printable]
  have mistaken : isMistaken (escapeText text) = true := by
    have line := Loud.escapeFrom (i := 0) (by rwa [Nat.zero_add]) shape
    rw [textPolicy, escapeFrom_of_named named] at line
    have found := afterWord?_eq_some_iff.mpr ⟨line, blank⟩
    rw [escapeText_of_ne_nil (by simp [shape])]
    exact isMistaken_iff.mpr (.inr (.inr (.inl ⟨word, key, _, found⟩)))
  rw [escapePlain_at mistaken shape (extraGroup_of_loud shape quiet loud),
    startsWithLabel_at quiet.written, ← completes]
  apply colonFollows_escapeFrom (Nat.succ_pos _)
  simp only [shape, List.length_append, List.length_cons]
  omega

/-- Plain text is written as a line that starts with a label exactly if it is fragile. -/
theorem startsWithLabel_escapePlain (text : List Char) :
    startsWithLabel (escapePlain text) = isFragile text := by
  apply Bool.eq_iff_iff.mpr
  exact ⟨isFragile_of_startsWithLabel, startsWithLabel_of_isFragile⟩

/-- Plain text is never written as a line that starts with a keyword. -/
theorem afterWord?_escapePlain (text : List Char) {word : String} (key : word ∈ keywords) :
    afterWord? word (escapePlain text) = none := by
  by_cases mistaken : isMistaken (escapeText text) = true
  · obtain ⟨front, c, back, _, quiet, _, written⟩ := escapePlain_split mistaken
    rw [written, ← List.append_assoc]
    apply afterWord?_of_marks (marks_of_quiet c quiet) _ _ key
    apply List.mem_append_right
    exact List.mem_cons_self
  · rw [escapePlain, if_neg mistaken]
    cases found : afterWord? word (escapeText text) with
    | none => rfl
    | some rest =>
        apply absurd _ mistaken
        exact isMistaken_iff.mpr (.inr (.inr (.inl ⟨word, key, rest, found⟩)))

theorem not_comment_escapePlain (text : List Char) : ¬ ['/', '/'] <+: escapePlain text := by
  intro comment
  have labelled := startsWithLabel_of_isMistaken_escapePlain
    (isMistaken_iff.mpr (.inr (.inl comment)))
  obtain ⟨name, rest, found⟩ := startsWithLabel_iff_labelParts?.mp labelled
  obtain ⟨shape, filled, written, _⟩ := labelParts?_eq_some_iff.mp found
  rw [shape] at comment
  exact not_comment_of_marks filled (isNameMark_of_isWrittenName _ _ written) _ comment

theorem escapePlain_ne_brace (text : List Char) : escapePlain text ≠ ['}'] := by
  intro brace
  have labelled := startsWithLabel_of_isMistaken_escapePlain (isMistaken_iff.mpr (.inl brace))
  rw [brace] at labelled
  exact absurd labelled (by decide)

end FlowGraph.Listing
