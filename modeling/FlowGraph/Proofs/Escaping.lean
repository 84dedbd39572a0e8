import FlowGraph.Text.Escape

/-! Escaped text. What is written for a text is put together from groups and from the
characters that a policy leaves. Text whose control characters and outer blanks are
groups keeps to one line and is left alone by trimming. -/
namespace FlowGraph.Text

/-- The characters that written names and groups consist of. -/
def isNameMark (c : Char) : Bool := isNameChar c || c == '\\' || c == '{' || c == '}'

theorem isNameChar_eq (c : Char) :
    isNameChar c =
      ((decide (65 ≤ c.toNat ∧ c.toNat ≤ 90) ||
        decide (97 ≤ c.toNat) && decide (c.toNat ≤ 122) ||
          decide (48 ≤ c.toNat) && decide (c.toNat ≤ 57)) || c == '_' || c == '.' || c == '$') :=
  rfl

theorem toNat_of_isNameChar {c : Char} (named : isNameChar c = true) :
    c.toNat = 36 ∨ c.toNat = 46 ∨ (48 ≤ c.toNat ∧ c.toNat ≤ 57) ∨
      (65 ≤ c.toNat ∧ c.toNat ≤ 90) ∨ c.toNat = 95 ∨ (97 ≤ c.toNat ∧ c.toNat ≤ 122) := by
  simp only [isNameChar_eq, Bool.or_eq_true, Bool.and_eq_true, decide_eq_true_eq,
    beq_iff_eq] at named
  obtain ((((upper | lower) | digit) | rfl) | rfl) | rfl := named
  · exact .inr (.inr (.inr (.inl upper)))
  · exact .inr (.inr (.inr (.inr (.inr lower))))
  · exact .inr (.inr (.inl digit))
  all_goals decide

theorem isBlank_of_isNameChar {c : Char} (named : isNameChar c = true) : isBlank c = false := by
  have range := toNat_of_isNameChar named
  simp only [isBlank, blankRanges, List.any_cons, List.any_nil, Bool.or_false,
    Bool.or_eq_false_iff, Bool.and_eq_false_iff, decide_eq_false_iff_not]
  omega

theorem isNameChar_of_isBlank {c : Char} (blank : isBlank c = true) : isNameChar c = false := by
  apply Bool.eq_false_iff.mpr
  intro named
  rw [isBlank_of_isNameChar named] at blank
  cases blank

theorem isControl_of_isNameChar {c : Char} (named : isNameChar c = true) :
    isControl c = false := by
  have range := toNat_of_isNameChar named
  simp only [isControl, Bool.or_eq_false_iff, Bool.and_eq_false_iff, decide_eq_false_iff_not]
  omega

theorem isNameChar_of_isHexDigit {c : Char} (hex : isHexDigit c = true) :
    isNameChar c = true := by
  unfold isHexDigit hexValue? at hex
  simp only [isNameChar_eq, Bool.or_eq_true, Bool.and_eq_true, decide_eq_true_eq]
  split at hex
  · rename_i digit
    have range : 48 ≤ c.toNat ∧ c.toNat ≤ 57 := by
      change (decide (48 ≤ c.toNat) && decide (c.toNat ≤ 57)) = true at digit
      simpa using digit
    exact .inl (.inl (.inl (.inr range)))
  · split at hex
    · rename_i lower
      have range : 97 ≤ c.toNat ∧ c.toNat ≤ 102 := lower
      exact .inl (.inl (.inl (.inl (.inr ⟨range.1, Nat.le_trans range.2 (by decide)⟩))))
    · split at hex
      · rename_i upper
        have range : 65 ≤ c.toNat ∧ c.toNat ≤ 70 := upper
        exact .inl (.inl (.inl (.inl (.inl ⟨range.1, Nat.le_trans range.2 (by decide)⟩))))
      · cases hex

theorem isBlank_of_isNameMark {c : Char} (mark : isNameMark c = true) : isBlank c = false := by
  simp only [isNameMark, Bool.or_eq_true, beq_iff_eq] at mark
  obtain ((named | rfl) | rfl) | rfl := mark
  · exact isBlank_of_isNameChar named
  all_goals decide

theorem ne_of_class {p : Char → Bool} {c d : Char} (inside : p c = true) (outside : p d = false) :
    c ≠ d := by
  intro same
  rw [same, outside] at inside
  cases inside

/-! Groups. -/

theorem hexValue?_digitChar : ∀ n < 16, hexValue? n.digitChar = some n := by decide

theorem readHex?_toDigits (n : Nat) : readHex? (Nat.toDigits 16 n) = some n := by
  induction n using Nat.strongRecOn with
  | ind n ih =>
      by_cases small : n < 16
      · rw [Nat.toDigits_of_lt_base small]
        simp [readHex?, hexValue?_digitChar n small]
      · have front := ih (n / 16) (by omega)
        have last := hexValue?_digitChar (n % 16) (Nat.mod_lt n (by decide))
        rw [Nat.toDigits_of_base_le (by decide) (Nat.not_lt.mp small)]
        unfold readHex? at front ⊢
        rw [List.foldlM_append, front]
        simp only [bind, Option.bind, List.foldlM_cons, last, Option.map_some, List.foldlM_nil]
        rw [Nat.div_add_mod n 16]
        rfl

theorem isHexDigit_of_mem_toDigits {n : Nat} {c : Char} (digit : c ∈ Nat.toDigits 16 n) :
    isHexDigit c = true := by
  induction n using Nat.strongRecOn with
  | ind n ih =>
      by_cases small : n < 16
      · rw [Nat.toDigits_of_lt_base small, List.mem_singleton] at digit
        rw [digit, isHexDigit, hexValue?_digitChar n small]
        rfl
      · rw [Nat.toDigits_of_base_le (by decide) (Nat.not_lt.mp small), List.mem_append,
          List.mem_singleton] at digit
        obtain front | last := digit
        · exact ih (n / 16) (by omega) front
        · rw [last, isHexDigit, hexValue?_digitChar (n % 16) (Nat.mod_lt n (by decide))]
          rfl

theorem isNameMark_of_mem_group {c x : Char} (inside : x ∈ group c) : isNameMark x = true := by
  simp only [group, List.mem_cons, List.mem_append, List.not_mem_nil, or_false] at inside
  obtain rfl | rfl | digit | rfl := inside
  · decide
  · decide
  · have named := isNameChar_of_isHexDigit (isHexDigit_of_mem_toDigits digit)
    simp [isNameMark, named]
  · decide

/-! Pieces of escaped text. -/

/-- The written form of a text whose first character stands at place `i`. -/
def escapeFrom (policy : Nat → Char → Bool) (i : Nat) (cs : List Char) : List Char :=
  (cs.zipIdx i).flatMap fun (c, i) => if policy i c then group c else [c]

@[simp] theorem escapeFrom_nil (policy : Nat → Char → Bool) (i : Nat) :
    escapeFrom policy i [] = [] := rfl

theorem escapeFrom_cons (policy : Nat → Char → Bool) (i : Nat) (c : Char) (cs : List Char) :
    escapeFrom policy i (c :: cs) =
      (if policy i c then group c else [c]) ++ escapeFrom policy (i + 1) cs := rfl

theorem escapeFrom_append (policy : Nat → Char → Bool) (i : Nat) (front back : List Char) :
    escapeFrom policy i (front ++ back) =
      escapeFrom policy i front ++ escapeFrom policy (i + front.length) back := by
  unfold escapeFrom
  rw [List.zipIdx_append, List.flatMap_append]

theorem escapeFrom_congr {f g : Nat → Char → Bool} {i : Nat} {cs : List Char}
    (same : ∀ k c, i ≤ k → k < i + cs.length → f k c = g k c) :
    escapeFrom f i cs = escapeFrom g i cs := by
  induction cs generalizing i with
  | nil => rfl
  | cons c cs ih =>
      simp only [List.length_cons] at same
      rw [escapeFrom_cons, escapeFrom_cons, same i c (Nat.le_refl i) (by omega), ih]
      intro k d after before
      exact same k d (by omega) (by omega)

theorem needsGroup_of_isNameChar {c : Char} (named : isNameChar c = true) (last i : Nat) :
    needsGroup last i c = false := by
  have plain := ne_of_class named (by decide : isNameChar '\\' = false)
  simp [needsGroup, isControl_of_isNameChar named, isBlank_of_isNameChar named, plain]

theorem escapeFrom_of_named {cs : List Char} (named : ∀ c ∈ cs, isNameChar c = true)
    (last i : Nat) : escapeFrom (needsGroup last) i cs = cs := by
  induction cs generalizing i with
  | nil => rfl
  | cons c cs ih =>
      obtain ⟨first, others⟩ := List.forall_mem_cons.mp named
      rw [escapeFrom_cons, needsGroup_of_isNameChar first, ih others]
      rfl

theorem escapeWith_of_ne_nil (policy : Nat → Char → Bool) {cs : List Char} (filled : cs ≠ []) :
    escapeWith policy cs = escapeFrom policy 0 cs := by
  rw [escapeWith, if_neg (by simpa using filled)]
  rfl

/-! Text that trimming leaves alone. -/

/-- The text is not empty and has no blank at either end. -/
structure Tight (cs : List Char) : Prop where
  first : ∃ c rest, cs = c :: rest ∧ isBlank c = false
  last : ∃ front c, cs = front ++ [c] ∧ isBlank c = false

theorem Tight.ne_nil {cs : List Char} (tight : Tight cs) : cs ≠ [] := by
  obtain ⟨c, rest, shape, _⟩ := tight.first
  simp [shape]

theorem Tight.append {front back : List Char} (head : Tight front) (middle : List Char)
    (tail : Tight back) : Tight (front ++ middle ++ back) := by
  obtain ⟨c, rest, first, open_⟩ := head.first
  obtain ⟨before, d, last, close_⟩ := tail.last
  constructor
  · exact ⟨c, rest ++ middle ++ back, by simp [first], open_⟩
  · exact ⟨front ++ middle ++ before, d, by simp [last], close_⟩

theorem isBlank_space : ∀ c ∈ [' '], isBlank c = true := List.all_eq_true.mp (by decide)

theorem spanEnd_of_last {p : Char → Bool} {front back : List Char} {c : Char}
    (outside : p c = false) (inside : ∀ x ∈ back, p x = true) :
    spanEnd p (front ++ [c] ++ back) = (front ++ [c], back) := by
  have within : ∀ x ∈ back.reverse, p x = true := by
    intro x member
    exact inside x (List.mem_reverse.mp member)
  have turned : (front ++ [c] ++ back).reverse = back.reverse ++ c :: front.reverse := by simp
  rw [spanEnd, turned, List.dropWhile_append_of_pos within, List.takeWhile_append_of_pos within,
    List.dropWhile_cons_of_neg (by simp [outside]), List.takeWhile_cons_of_neg (by simp [outside])]
  simp

theorem Tight.spanEnd_blank {cs back : List Char} (tight : Tight cs)
    (blank : ∀ c ∈ back, isBlank c = true) : spanEnd isBlank (cs ++ back) = (cs, back) := by
  obtain ⟨front, c, shape, solid⟩ := tight.last
  rw [shape]
  exact spanEnd_of_last solid blank

theorem Tight.trim_pad {lead cs back : List Char} (tight : Tight cs)
    (before : ∀ c ∈ lead, isBlank c = true) (behind : ∀ c ∈ back, isBlank c = true) :
    trim (lead ++ cs ++ back) = cs := by
  obtain ⟨c, rest, shape, solid⟩ := tight.first
  have started : trimStart (lead ++ cs ++ back) = cs ++ back := by
    rw [List.append_assoc, trimStart, List.dropWhile_append_of_pos before, shape, List.cons_append,
      List.dropWhile_cons_of_neg (by simp [solid])]
  rw [trim, started, trimEnd, tight.spanEnd_blank behind]

theorem Tight.trim_eq {cs : List Char} (tight : Tight cs) : trim cs = cs := by
  have padded : trim ([] ++ cs ++ []) = cs := tight.trim_pad (by simp) (by simp)
  rwa [List.nil_append, List.append_nil] at padded

/-- A policy that picks at least what free text cannot hold. -/
def Guards (policy : Nat → Char → Bool) (cs : List Char) : Prop :=
  ∀ i c, needsGroup (cs.length - 1) i c = true → policy i c = true

theorem Guards.backslash {policy : Nat → Char → Bool} {cs : List Char} (guards : Guards policy cs)
    (i : Nat) : policy i '\\' = true := by
  apply guards
  simp [needsGroup]

theorem tight_group (c : Char) : Tight (group c) := by
  constructor
  · exact ⟨'\\', _, rfl, by decide⟩
  · exact ⟨'\\' :: '{' :: Nat.toDigits 16 c.toNat, '}', rfl, by decide⟩

theorem Guards.tight_end {policy : Nat → Char → Bool} {cs : List Char} (guards : Guards policy cs)
    {i : Nat} (outer : i = 0 ∨ i = cs.length - 1) (c : Char) :
    Tight (if policy i c then group c else [c]) := by
  split
  · exact tight_group c
  · rename_i kept
    have solid : isBlank c = false := by
      apply Bool.eq_false_iff.mpr
      intro blank
      apply kept
      apply guards
      simp only [needsGroup, blank, Bool.true_and, Bool.or_eq_true, beq_iff_eq]
      exact .inr outer
    exact ⟨⟨c, [], rfl, solid⟩, ⟨[], c, rfl, solid⟩⟩

theorem Guards.tight {policy : Nat → Char → Bool} {cs : List Char} (guards : Guards policy cs) :
    Tight (escapeWith policy cs) := by
  by_cases empty : cs = []
  · subst empty
    exact ⟨⟨'\\', ['{', '}'], rfl, by decide⟩, ⟨['\\', '{'], '}', rfl, by decide⟩⟩
  · rw [escapeWith_of_ne_nil policy empty]
    constructor
    · obtain ⟨c, rest, shape⟩ := List.exists_cons_of_ne_nil empty
      obtain ⟨x, tail, first, solid⟩ := (guards.tight_end (.inl rfl) c).first
      refine ⟨x, tail ++ escapeFrom policy 1 rest, ?_, solid⟩
      rw [shape, escapeFrom_cons, first, List.cons_append]
    · obtain ⟨front, c, shape⟩ := List.eq_nil_or_concat cs |>.resolve_left empty
      have place : 0 + front.length = cs.length - 1 := by simp [shape]
      obtain ⟨head, x, last, solid⟩ := (guards.tight_end (.inr place) c).last
      refine ⟨escapeFrom policy 0 front ++ head, x, ?_, solid⟩
      rw [shape, List.concat_eq_append, escapeFrom_append, escapeFrom_cons, last]
      simp

theorem mem_escapeWith {policy : Nat → Char → Bool} {cs : List Char} {x : Char}
    (member : x ∈ escapeWith policy cs) :
    isNameMark x = true ∨ ∃ i, policy i x = false := by
  unfold escapeWith at member
  split at member
  · have marks : ∀ x ∈ emptyGroup, isNameMark x = true := List.all_eq_true.mp (by decide)
    exact .inl (marks x member)
  · obtain ⟨⟨c, i⟩, _, piece⟩ := List.mem_flatMap.mp member
    dsimp only at piece
    split at piece
    · exact .inl (isNameMark_of_mem_group piece)
    · rename_i kept
      rw [List.mem_singleton.mp piece]
      exact .inr ⟨i, by simpa using kept⟩

theorem Guards.no_break {policy : Nat → Char → Bool} {cs : List Char} (guards : Guards policy cs) :
    '\n' ∉ escapeWith policy cs := by
  intro member
  obtain mark | ⟨i, kept⟩ := mem_escapeWith member
  · exact absurd mark (by decide)
  · have picked := guards i '\n' (by simp [needsGroup, show isControl '\n' = true from by decide])
    rw [kept] at picked
    cases picked

theorem guards_text (cs : List Char) : Guards (needsGroup (cs.length - 1)) cs := by
  intro i c needed
  exact needed

theorem guards_name (cs : List Char) : Guards (fun _ c => !isNameChar c) cs := by
  intro i c needed
  cases named : isNameChar c with
  | false => simp [named]
  | true =>
      rw [needsGroup_of_isNameChar named] at needed
      cases needed

theorem isNameMark_of_mem_escapeName {cs : List Char} {x : Char} (member : x ∈ escapeName cs) :
    isNameMark x = true := by
  obtain mark | ⟨_, kept⟩ := mem_escapeWith member
  · exact mark
  · have named : isNameChar x = true := by simpa using kept
    simp [isNameMark, named]

end FlowGraph.Text
