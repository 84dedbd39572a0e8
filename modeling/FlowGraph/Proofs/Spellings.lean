import FlowGraph.Listing.Printing
import FlowGraph.Proofs.ResolvedGroups

/-! Spellings of a text. A spelling is put together from characters that stand for
themselves and from groups. Writing by any policy gives a spelling, whose characters
are those that the policy leaves. Where no backslash is among them, the groups that
reading finds are the groups that were written. -/
namespace FlowGraph.Text

/-- A written form of a text, in which a character stands for itself only if it is
`kept`, and a group stands for what it holds. -/
inductive Spelling (kept : Char → Prop) : (written text : List Char) → Prop where
  | nil : Spelling kept [] []
  | char {c : Char} {written text : List Char} : kept c → Spelling kept written text →
      Spelling kept (c :: written) (c :: text)
  | group {inside part written text : List Char} : Stands inside part →
      Spelling kept written text →
        Spelling kept ('\\' :: '{' :: (inside ++ '}' :: written)) (part ++ text)

theorem Spelling.mono {kept held : Char → Prop} (wider : ∀ c, kept c → held c)
    {written text : List Char} (spelling : Spelling kept written text) :
    Spelling held written text := by
  induction spelling with
  | nil => exact .nil
  | char keeps _ ih => exact .char (wider _ keeps) ih
  | group stands _ ih => exact .group stands ih

/-- A backslash in a spelling belongs to a group, unless it is kept itself. -/
theorem Spelling.scan {kept : Char → Prop} (plain : ¬ kept '\\') {written text : List Char}
    (spelling : Spelling kept written text) : Scan StandsSigned written text := by
  induction spelling with
  | nil => exact .nil
  | char keeps _ ih =>
      refine .char (not_startsGroup_cons ?_ _) ih
      rintro rfl
      exact plain keeps
  | group stands _ ih => exact .group (.unsigned stands) ih

theorem Spelling.unescape_eq {kept : Char → Prop} (plain : ¬ kept '\\') {written text : List Char}
    (spelling : Spelling kept written text) : unescape written = text :=
  Scan.unique id (scan_unescapeFrom 0 written) (spelling.scan plain)

/-! Written text. -/

/-- The digits that are written for a character denote it. -/
theorem stands_toDigits (c : Char) : Stands (Nat.toDigits 16 c.toNat) [c] :=
  .scalar Nat.toDigits_ne_nil (readHex?_eq_some_iff.mp (readHex?_toDigits c.toNat))

/-- A character that a policy leaves somewhere in a text that starts at place `i`. -/
def Leaves (policy : Nat → Char → Bool) (i : Nat) (cs : List Char) (c : Char) : Prop :=
  ∃ k, cs[k]? = some c ∧ policy (i + k) c = false

theorem Leaves.tail {policy : Nat → Char → Bool} {i : Nat} {c d : Char} {cs : List Char}
    (leaves : Leaves policy (i + 1) cs d) : Leaves policy i (c :: cs) d := by
  obtain ⟨k, found, kept⟩ := leaves
  refine ⟨k + 1, found, ?_⟩
  rwa [Nat.add_right_comm] at kept

theorem spelling_escapeFrom (policy : Nat → Char → Bool) (i : Nat) (cs : List Char) :
    Spelling (Leaves policy i cs) (escapeFrom policy i cs) cs := by
  induction cs generalizing i with
  | nil => exact .nil
  | cons c cs ih =>
      have rest : Spelling (Leaves policy i (c :: cs)) (escapeFrom policy (i + 1) cs) cs :=
        (ih (i + 1)).mono fun _ => Leaves.tail
      rw [escapeFrom_cons]
      cases picked : policy i c with
      | true =>
          have shape : group c ++ escapeFrom policy (i + 1) cs =
              '\\' :: '{' :: (Nat.toDigits 16 c.toNat ++ '}' :: escapeFrom policy (i + 1) cs) := by
            simp [group]
          rw [if_pos rfl, shape]
          exact .group (stands_toDigits c) rest
      | false => exact .char ⟨0, rfl, picked⟩ rest

theorem spelling_escapeWith (policy : Nat → Char → Bool) (cs : List Char) :
    Spelling (Leaves policy 0 cs) (escapeWith policy cs) cs := by
  by_cases empty : cs = []
  · subst empty
    exact .group .nothing .nil
  · rw [escapeWith_of_ne_nil policy empty]
    exact spelling_escapeFrom policy 0 cs

theorem unescape_escapeFrom {policy : Nat → Char → Bool} {i : Nat} {cs : List Char}
    (safe : ∀ k, cs[k]? = some '\\' → policy (i + k) '\\' = true) :
    unescape (escapeFrom policy i cs) = cs := by
  apply (spelling_escapeFrom policy i cs).unescape_eq
  rintro ⟨k, found, kept⟩
  rw [safe k found] at kept
  cases kept

theorem unescape_escapeWith {policy : Nat → Char → Bool} {cs : List Char}
    (safe : ∀ i, cs[i]? = some '\\' → policy i '\\' = true) :
    unescape (escapeWith policy cs) = cs := by
  apply (spelling_escapeWith policy cs).unescape_eq
  rintro ⟨i, found, kept⟩
  rw [Nat.zero_add, safe i found] at kept
  cases kept

theorem Guards.unescape_eq {policy : Nat → Char → Bool} {cs : List Char}
    (guards : Guards policy cs) : unescape (escapeWith policy cs) = cs :=
  unescape_escapeWith fun i _ => guards.backslash i

/-- A written name has no other characters than name characters and groups. -/
theorem spelling_escapeName (cs : List Char) :
    Spelling (isNameChar · = true) (escapeName cs) cs := by
  apply (spelling_escapeWith _ cs).mono
  rintro c ⟨i, -, kept⟩
  simpa using kept

end FlowGraph.Text

namespace FlowGraph.Listing
open FlowGraph.Text

theorem exists_guards_escapePlain (text : List Char) :
    ∃ policy, Guards policy text ∧ escapePlain text = escapeWith policy text := by
  unfold escapePlain
  split
  · refine ⟨_, ?_, rfl⟩
    intro i c needed
    simp [needed]
  · exact ⟨_, guards_text text, rfl⟩

/-- Resolving the groups of a written text gives the text back, whatever else a policy
picks besides its backslashes. So it does for names, for free text and for plain text;
and a written name consists of name characters and groups. -/
theorem spellings_resolved (cs : List Char) :
    (∀ policy : Nat → Char → Bool, (∀ i, cs[i]? = some '\\' → policy i '\\' = true) →
      unescape (escapeWith policy cs) = cs) ∧
    (unescape (escapeName cs) = cs ∧ unescape (escapeText cs) = cs ∧
      unescape (escapePlain cs) = cs) ∧
    Spelling (isNameChar · = true) (escapeName cs) cs := by
  refine ⟨fun _ => unescape_escapeWith, ⟨?_, ?_, ?_⟩, spelling_escapeName cs⟩
  · exact (guards_name cs).unescape_eq
  · exact (guards_text cs).unescape_eq
  · obtain ⟨policy, guards, written⟩ := exists_guards_escapePlain cs
    rw [written]
    exact guards.unescape_eq

/-- `a}\{41}\`, in which a group seems to stand between two backslashes. -/
def sampleBraces : List Char := ['a', '}', '\\', '{', '4', '1', '}', '\\']

/-- Picks the places of the two backslashes, whatever stands there. -/
def samplePlaces (i : Nat) (_ : Char) : Bool := i == 2 || i == 7

theorem sampleBraces_resolved :
    (∀ i, sampleBraces[i]? = some '\\' → samplePlaces i '\\' = true) ∧
      escapeWith samplePlaces sampleBraces =
        ['a', '}', '\\', '{', '5', 'c', '}', '{', '4', '1', '}', '\\', '{', '5', 'c', '}'] ∧
      unescape (escapeWith samplePlaces sampleBraces) = sampleBraces := by
  have near : ∀ i < 8, sampleBraces[i]? = some '\\' → samplePlaces i '\\' = true := by decide
  have safe : ∀ i, sampleBraces[i]? = some '\\' → samplePlaces i '\\' = true := by
    intro i found
    exact near i (List.getElem?_eq_some_iff.mp found).1 found
  exact ⟨safe, by decide, (spellings_resolved sampleBraces).1 samplePlaces safe⟩

end FlowGraph.Listing
