import FlowGraph.Proofs.Escaping
import Mathlib.Logic.ExistsUnique

/-! Which groups are resolved. A group holds nothing or the digits of a code point, and
groups are resolved from left to right. Reading takes one more form for a group, in
which the digits have a plus sign. So it resolves the groups and keeps all else
exactly in the texts that are free of this form. -/
namespace FlowGraph.Text

/-! Code points. -/

/-- A hexadecimal digit, in either case, and its value. -/
structure HexDigit (d : Char) (v : Nat) : Prop where
  small : v < 16
  spelled : d = v.digitChar ∨ d = v.digitChar.toUpper

/-- Hexadecimal digits and the number that they denote, the most significant first. -/
inductive HexNumber : List Char → Nat → Prop where
  | nil : HexNumber [] 0
  | snoc {digits : List Char} {n v : Nat} {d : Char} : HexNumber digits n → HexDigit d v →
      HexNumber (digits ++ [d]) (16 * n + v)

theorem digitChar_decimal : ∀ v < 10, Char.ofNat (48 + v) = v.digitChar := by decide

theorem digitChar_lower : ∀ v < 6, Char.ofNat (97 + v) = (v + 10).digitChar := by decide

theorem digitChar_upper : ∀ v < 6, Char.ofNat (65 + v) = (v + 10).digitChar.toUpper := by decide

theorem hexValue?_upper : ∀ v < 16, hexValue? v.digitChar.toUpper = some v := by decide

/-- A character is the one at its distance from a lower one. -/
theorem eq_of_offset {d e : Char} {low : Nat} (above : low ≤ d.toNat)
    (spelled : Char.ofNat (low + (d.toNat - low)) = e) : d = e := by
  rwa [Nat.add_sub_cancel' above, Char.ofNat_toNat] at spelled

theorem hexValue?_eq_some_iff {d : Char} {v : Nat} : hexValue? d = some v ↔ HexDigit d v := by
  constructor
  · intro found
    unfold hexValue? at found
    split at found
    · rename_i digit
      have range : 48 ≤ d.toNat ∧ d.toNat ≤ 57 := by
        change (decide (48 ≤ d.toNat) && decide (d.toNat ≤ 57)) = true at digit
        simpa using digit
      obtain rfl : d.toNat - 48 = v := Option.some.inj found
      exact ⟨by omega, .inl (eq_of_offset range.1 (digitChar_decimal _ (by omega)))⟩
    · split at found
      · rename_i lower
        have range : 97 ≤ d.toNat ∧ d.toNat ≤ 102 := lower
        obtain rfl : d.toNat - 97 + 10 = v := Option.some.inj found
        exact ⟨by omega, .inl (eq_of_offset range.1 (digitChar_lower _ (by omega)))⟩
      · split at found
        · rename_i upper
          have range : 65 ≤ d.toNat ∧ d.toNat ≤ 70 := upper
          obtain rfl : d.toNat - 65 + 10 = v := Option.some.inj found
          exact ⟨by omega, .inr (eq_of_offset range.1 (digitChar_upper _ (by omega)))⟩
        · cases found
  · rintro ⟨small, rfl | rfl⟩
    · exact hexValue?_digitChar v small
    · exact hexValue?_upper v small

theorem HexDigit.isHexDigit {d : Char} {v : Nat} (digit : HexDigit d v) : isHexDigit d = true := by
  rw [Text.isHexDigit, hexValue?_eq_some_iff.mpr digit]
  rfl

/-- Reading on from digits that denote `m`. -/
theorem HexNumber.of_foldlM {front digits : List Char} {m n : Nat} (before : HexNumber front m)
    (found : digits.foldlM (fun n c => (hexValue? c).map (16 * n + ·)) m = some n) :
    HexNumber (front ++ digits) n := by
  induction digits generalizing front m with
  | nil =>
      cases found
      rwa [List.append_nil]
  | cons d digits ih =>
      rw [List.foldlM_cons] at found
      cases value : hexValue? d with
      | none =>
          rw [value] at found
          cases found
      | some v =>
          rw [value] at found
          have longer := ih (before.snoc (hexValue?_eq_some_iff.mp value)) found
          rwa [List.append_assoc] at longer

theorem readHex?_eq_some_iff {digits : List Char} {n : Nat} :
    readHex? digits = some n ↔ HexNumber digits n := by
  refine ⟨HexNumber.of_foldlM .nil, fun number => ?_⟩
  induction number with
  | nil => rfl
  | snoc _ digit ih =>
      rw [readHex?] at ih ⊢
      rw [List.foldlM_append, ih]
      simp [hexValue?_eq_some_iff.mpr digit]

theorem HexNumber.isHexDigit {digits : List Char} {n : Nat} (number : HexNumber digits n) :
    ∀ d ∈ digits, isHexDigit d = true := by
  induction number with
  | nil => simp
  | snoc _ digit ih =>
      intro d member
      rcases List.mem_append.mp member with front | last
      · exact ih d front
      · rw [List.mem_singleton.mp last]
        exact digit.isHexDigit

theorem HexNumber.not_mem {digits : List Char} {n : Nat} {c : Char} (number : HexNumber digits n)
    (other : Text.isHexDigit c = false) : c ∉ digits :=
  fun member => ne_of_class (number.isHexDigit c member) other rfl

theorem scalar?_eq_some_iff {n : Nat} {c : Char} : scalar? n = some c ↔ n = c.toNat := by
  unfold scalar?
  constructor
  · intro found
    split at found
    · rename_i valid
      rw [← Option.some.inj found, Char.ofNat, dif_pos valid]
      rfl
    · cases found
  · rintro rfl
    have valid : c.toNat.isValidChar := c.valid
    rw [if_pos valid, Char.ofNat_toNat]

/-! What groups hold. -/

/-- What a group may hold, and the text that the group then stands for: nothing, or
the digits of a code point. -/
inductive Stands : (inside text : List Char) → Prop where
  | nothing : Stands [] []
  | scalar {digits : List Char} {c : Char} : digits ≠ [] → HexNumber digits c.toNat →
      Stands digits [c]

/-- What a group is found to hold when it is read. -/
inductive StandsSigned : (inside text : List Char) → Prop where
  | unsigned {inside text : List Char} : Stands inside text → StandsSigned inside text
  | signed {digits : List Char} {c : Char} : digits ≠ [] → HexNumber digits c.toNat →
      StandsSigned ('+' :: digits) [c]

theorem codePoint?_unsigned {digits : List Char} (unsigned : ∀ more, digits ≠ '+' :: more)
    {c : Char} : codePoint? digits = some c ↔ digits ≠ [] ∧ HexNumber digits c.toNat := by
  unfold codePoint?
  split
  · rename_i more
    exact absurd rfl (unsigned more)
  · simp [← readHex?_eq_some_iff, Option.bind_eq_some_iff, scalar?_eq_some_iff]

theorem codePoint?_signed {digits : List Char} {c : Char} :
    codePoint? ('+' :: digits) = some c ↔ digits ≠ [] ∧ HexNumber digits c.toNat := by
  have unsigned : codePoint? ('+' :: digits) =
      if digits.isEmpty then none else (readHex? digits).bind scalar? := rfl
  simp [unsigned, ← readHex?_eq_some_iff, Option.bind_eq_some_iff, scalar?_eq_some_iff]

theorem groupText?_eq_some_iff {inside text : List Char} :
    groupText? inside = some text ↔ StandsSigned inside text := by
  unfold groupText?
  constructor
  · intro found
    split at found
    · rename_i empty
      rw [List.isEmpty_iff.mp empty, ← Option.some.inj found]
      exact .unsigned .nothing
    · obtain ⟨c, number, rfl⟩ := Option.map_eq_some_iff.mp found
      by_cases sign : ∃ digits, inside = '+' :: digits
      · obtain ⟨digits, rfl⟩ := sign
        obtain ⟨filled, denoted⟩ := codePoint?_signed.mp number
        exact .signed filled denoted
      · obtain ⟨filled, denoted⟩ := (codePoint?_unsigned (not_exists.mp sign)).mp number
        exact .unsigned (.scalar filled denoted)
  · intro stands
    cases stands with
    | unsigned stands =>
        cases stands with
        | nothing => rfl
        | scalar filled number =>
            have unsigned : ∀ more, inside ≠ '+' :: more := by
              rintro more rfl
              exact number.not_mem (c := '+') (by decide) List.mem_cons_self
            rw [if_neg (by simpa using filled), (codePoint?_unsigned unsigned).mpr ⟨filled, number⟩]
            rfl
    | signed filled number =>
        rw [if_neg (by simp), codePoint?_signed.mpr ⟨filled, number⟩]
        rfl

theorem StandsSigned.unique {inside text other : List Char} (first : StandsSigned inside text)
    (second : StandsSigned inside other) : text = other :=
  Option.some.inj
    ((groupText?_eq_some_iff.mpr first).symm.trans (groupText?_eq_some_iff.mpr second))

/-- A group ends at its first closing brace and has no other backslash than its own. -/
theorem StandsSigned.not_mem {inside text : List Char} {c : Char} (stands : StandsSigned inside text)
    (other : isHexDigit c = false) (plus : c ≠ '+') : c ∉ inside := by
  cases stands with
  | unsigned stands =>
      cases stands with
      | nothing => exact List.not_mem_nil
      | scalar _ number => exact number.not_mem other
  | signed _ number =>
      rw [List.mem_cons, not_or]
      exact ⟨plus, number.not_mem other⟩

theorem StandsSigned.closed {inside text : List Char} (stands : StandsSigned inside text) :
    ∀ x ∈ inside, (x != '}') = true := by
  have other : '}' ∉ inside := stands.not_mem (by decide) (by decide)
  intro x member
  simpa using ne_of_mem_of_not_mem member other

/-! Scans. -/

/-- The text starts with a group, if groups hold what `stands` says. -/
def StartsGroup (stands : List Char → List Char → Prop) (cs : List Char) : Prop :=
  ∃ inside text rest, stands inside text ∧ cs = '\\' :: '{' :: (inside ++ '}' :: rest)

/-- A scan of a text from left to right and its result. Every group gives way to the
text that it stands for, and any other character is kept. -/
inductive Scan (stands : List Char → List Char → Prop) : (text result : List Char) → Prop where
  | nil : Scan stands [] []
  | group {inside text rest result : List Char} : stands inside text → Scan stands rest result →
      Scan stands ('\\' :: '{' :: (inside ++ '}' :: rest)) (text ++ result)
  | char {c : Char} {rest result : List Char} : ¬ StartsGroup stands (c :: rest) →
      Scan stands rest result → Scan stands (c :: rest) (c :: result)

theorem StartsGroup.of_unsigned {cs : List Char} (group : StartsGroup Stands cs) :
    StartsGroup StandsSigned cs := by
  obtain ⟨inside, text, rest, stands, shape⟩ := group
  exact ⟨inside, text, rest, .unsigned stands, shape⟩

theorem not_startsGroup_cons {stands : List Char → List Char → Prop} {c : Char}
    (plain : c ≠ '\\') (rest : List Char) : ¬ StartsGroup stands (c :: rest) := by
  rintro ⟨inside, text, tail, _, shape⟩
  exact plain (List.cons.inj shape).1

/-- No digits start with a sign. -/
theorem not_startsGroup_sign (rest : List Char) : ¬ StartsGroup Stands ('\\' :: '{' :: '+' :: rest) := by
  rintro ⟨inside, text, tail, stands, shape⟩
  have same : '+' :: rest = inside ++ '}' :: tail := (List.cons.inj (List.cons.inj shape).2).2
  cases stands with
  | nothing => cases (List.cons.inj same).1
  | scalar filled number =>
      obtain ⟨d, digits, rfl⟩ := List.exists_cons_of_ne_nil filled
      rw [List.cons_append, List.cons.injEq] at same
      exact number.not_mem (c := '+') (by decide) (same.1 ▸ List.mem_cons_self)

/-- Text without a backslash is kept. -/
theorem Scan.keep {stands : List Char → List Char → Prop} {front rest result : List Char}
    (plain : '\\' ∉ front) (scan : Scan stands rest result) :
    Scan stands (front ++ rest) (front ++ result) := by
  induction front with
  | nil => exact scan
  | cons c front ih =>
      rw [List.mem_cons, not_or] at plain
      exact .char (not_startsGroup_cons (Ne.symm plain.1) _) (ih plain.2)

/-- Two groups at the head of a text are the same. -/
theorem group_unique {inside inside' text text' rest rest' : List Char}
    (first : StandsSigned inside text) (second : StandsSigned inside' text')
    (same : inside ++ '}' :: rest = inside' ++ '}' :: rest') :
    inside = inside' ∧ rest = rest' := by
  have insides := congrArg (List.takeWhile (· != '}')) same
  simp only [List.takeWhile_append_of_pos first.closed, List.takeWhile_append_of_pos second.closed,
    List.takeWhile_cons, bne_self_eq_false, Bool.false_eq_true, if_false, List.append_nil] at insides
  subst insides
  exact ⟨rfl, (List.cons.inj (List.append_cancel_left same)).2⟩

theorem Scan.unique {stands : List Char → List Char → Prop}
    (sound : ∀ {inside text}, stands inside text → StandsSigned inside text)
    {cs result other : List Char} (first : Scan stands cs result) (second : Scan stands cs other) :
    result = other := by
  induction first generalizing other with
  | nil =>
      cases second
      rfl
  | @group inside text rest result holds _ ih =>
      generalize shape : '\\' :: '{' :: (inside ++ '}' :: rest) = cs at second
      cases second with
      | nil => cases shape
      | group holds' rest' =>
          obtain ⟨rfl, rfl⟩ := group_unique (sound holds) (sound holds')
            (List.cons.inj (List.cons.inj shape).2).2
          rw [(sound holds).unique (sound holds'), ih rest']
      | char open_ _ => exact absurd ⟨inside, text, rest, holds, shape.symm⟩ open_
  | @char c rest result open_ _ ih =>
      generalize shape : c :: rest = cs at second
      cases second with
      | nil => cases shape
      | group holds _ => exact absurd ⟨_, _, _, holds, shape⟩ open_
      | char _ rest' =>
          cases shape
          rw [ih rest']

/-! Reading is a scan. -/

theorem groupAt?_eq_some_iff {cs text : List Char} {size : Nat} :
    groupAt? cs = some (text, size) ↔ ∃ inside rest, StandsSigned inside text ∧
      cs = '\\' :: '{' :: (inside ++ '}' :: rest) ∧ size = inside.length + 3 := by
  constructor
  · intro found
    unfold groupAt? at found
    split at found
    · rename_i rest
      split at found
      · cases found
      · rename_i c tail cut
        obtain ⟨text', stands, shape⟩ := Option.map_eq_some_iff.mp found
        obtain ⟨rfl, rfl⟩ := Prod.mk.inj shape
        have brace : c = '}' := by
          have first := List.head?_dropWhile_not (· != '}') rest
          simpa [cut] using first
        refine ⟨_, tail, groupText?_eq_some_iff.mp stands, ?_, rfl⟩
        rw [brace] at cut
        rw [← cut, List.takeWhile_append_dropWhile]
    · cases found
  · rintro ⟨inside, rest, stands, rfl, rfl⟩
    rw [groupAt?, List.dropWhile_append_of_pos stands.closed,
      List.takeWhile_append_of_pos stands.closed]
    simp [groupText?_eq_some_iff.mpr stands]

theorem startsGroup_iff {cs : List Char} : StartsGroup StandsSigned cs ↔ (groupAt? cs).isSome := by
  rw [Option.isSome_iff_exists]
  constructor
  · rintro ⟨inside, text, rest, stands, shape⟩
    exact ⟨_, groupAt?_eq_some_iff.mpr ⟨inside, rest, stands, shape, rfl⟩⟩
  · rintro ⟨⟨text, size⟩, found⟩
    obtain ⟨inside, rest, stands, shape, -⟩ := groupAt?_eq_some_iff.mp found
    exact ⟨inside, text, rest, stands, shape⟩

theorem scan_unescapeFrom (skip : Nat) (cs : List Char) :
    Scan StandsSigned (cs.drop skip) (unescapeFrom skip cs) := by
  fun_induction unescapeFrom skip cs with
  | case1 skip =>
      rw [List.drop_nil]
      exact .nil
  | case2 skip c rest ih => exact ih
  | case3 c rest text size found ih =>
      obtain ⟨inside, tail, stands, shape, rfl⟩ := groupAt?_eq_some_iff.mp found
      have past : rest.drop (inside.length + 3 - 1) = tail := by
        rw [(List.cons.inj shape).2]
        simp
      rw [past] at ih
      rw [List.drop_zero, shape]
      exact .group stands ih
  | case4 c rest found ih =>
      refine .char ?_ ih
      rw [startsGroup_iff, found]
      exact Bool.false_ne_true

/-! Signed groups. -/

/-- A group whose digits have a plus sign. -/
inductive SignedGroup : List Char → Prop where
  | mk {digits : List Char} {c : Char} : digits ≠ [] → HexNumber digits c.toNat →
      SignedGroup ('\\' :: '{' :: '+' :: (digits ++ ['}']))

/-- The text has a signed group somewhere in it. -/
def HasSigned (cs : List Char) : Prop := ∃ group, SignedGroup group ∧ group <:+: cs

theorem hasSigned_cons {c : Char} {rest : List Char} :
    HasSigned (c :: rest) ↔ (∃ group, SignedGroup group ∧ group <+: c :: rest) ∨ HasSigned rest := by
  simp only [HasSigned, List.infix_cons_iff, and_or_left, exists_or]

/-- Signed groups start with a backslash. -/
theorem hasSigned_append {front : List Char} (plain : '\\' ∉ front) (rest : List Char) :
    HasSigned (front ++ rest) ↔ HasSigned rest := by
  induction front with
  | nil => rfl
  | cons c front ih =>
      rw [List.mem_cons, not_or] at plain
      rw [List.cons_append, hasSigned_cons, ih plain.2, or_iff_right]
      rintro ⟨_, ⟨_, _⟩, lead⟩
      exact plain.1 (List.cons_prefix_cons.mp lead).1

theorem SignedGroup.startsGroup {group cs : List Char} (signed : SignedGroup group)
    (lead : group <+: cs) : StartsGroup StandsSigned cs := by
  cases signed with
  | @mk digits c filled number =>
      obtain ⟨rest, rfl⟩ := lead
      exact ⟨'+' :: digits, [c], rest, .signed filled number, by simp⟩

theorem hasSigned_group {inside text : List Char} (stands : Stands inside text) (rest : List Char) :
    HasSigned ('\\' :: '{' :: (inside ++ '}' :: rest)) ↔ HasSigned rest := by
  have solid : '\\' ∉ '{' :: (inside ++ ['}']) := by
    have inner : '\\' ∉ inside := (StandsSigned.unsigned stands).not_mem (by decide) (by decide)
    simp [inner]
  have behind : HasSigned ('{' :: (inside ++ '}' :: rest)) ↔ HasSigned rest := by
    simpa using hasSigned_append solid rest
  rw [hasSigned_cons, behind, or_iff_right]
  rintro ⟨_, ⟨_, _⟩, tail, same⟩
  exact not_startsGroup_sign _ ⟨inside, text, rest, stands, same⟩

/-- A scan that meets no signed group need not know of them. -/
theorem Scan.unsigned {cs result : List Char} (scan : Scan StandsSigned cs result)
    (free : ¬ HasSigned cs) : Scan Stands cs result := by
  induction scan with
  | nil => exact .nil
  | @group _ _ rest _ stands _ ih =>
      cases stands with
      | unsigned stands =>
          rw [hasSigned_group stands] at free
          exact .group stands (ih free)
      | signed filled number =>
          exact absurd ⟨_, .mk filled number, [], rest, by simp⟩ free
  | char open_ _ ih =>
      rw [hasSigned_cons, not_or] at free
      exact .char (fun group => open_ group.of_unsigned) (ih free.2)

/-- Signed groups that are kept make the result longer. -/
theorem Scan.exists_longer {cs result : List Char} (scan : Scan StandsSigned cs result) :
    ∃ kept, Scan Stands cs kept ∧ result.length ≤ kept.length ∧
      (HasSigned cs → result.length < kept.length) := by
  induction scan with
  | nil =>
      refine ⟨[], .nil, Nat.le_refl _, ?_⟩
      rintro ⟨_, ⟨_, _⟩, lead⟩
      simp at lead
  | @group inside text rest result stands _ ih =>
      obtain ⟨kept, scan, le, lt⟩ := ih
      cases stands with
      | unsigned stands =>
          refine ⟨text ++ kept, .group stands scan, by simpa using le, ?_⟩
          rw [hasSigned_group stands]
          intro signed
          simpa using lt signed
      | @signed digits c filled number =>
          -- The characters of the group are kept one by one, against one that it stands for.
          have solid : '\\' ∉ '{' :: '+' :: (digits ++ ['}']) := by
            have inner : '\\' ∉ digits := number.not_mem (by decide)
            simp [inner]
          have shape : '\\' :: '{' :: ('+' :: digits ++ '}' :: rest) =
              '\\' :: ('{' :: '+' :: (digits ++ ['}']) ++ rest) := by simp
          rw [shape]
          refine ⟨_, .char ?_ (scan.keep solid), ?_, fun _ => ?_⟩
          · exact not_startsGroup_sign _
          all_goals
            simp only [List.length_cons, List.length_append, List.length_nil]
            omega
  | @char c rest result open_ _ ih =>
      obtain ⟨kept, scan, le, lt⟩ := ih
      refine ⟨c :: kept, .char (fun group => open_ group.of_unsigned) scan, by simpa using le, ?_⟩
      rw [hasSigned_cons, or_iff_right]
      · intro signed
        simpa using lt signed
      · rintro ⟨group, signed, lead⟩
        exact open_ (signed.startsGroup lead)

/-- Groups are resolved by a scan that takes a sign for a part of a number. Its result
is that of the scan for groups without signs, which is determined by the text, exactly
if the text has no signed group. -/
theorem groups_resolved_iff_unsigned (cs : List Char) :
    (∃! result, Scan Stands cs result) ∧ Scan StandsSigned cs (unescape cs) ∧
      (Scan Stands cs (unescape cs) ↔ ∀ group, SignedGroup group → ¬ group <:+: cs) := by
  have scan : Scan StandsSigned cs (unescape cs) := scan_unescapeFrom 0 cs
  obtain ⟨kept, documented, -, longer⟩ := scan.exists_longer
  have determined : ∀ other, Scan Stands cs other → other = kept :=
    fun other found => Scan.unique .unsigned found documented
  refine ⟨⟨kept, documented, determined⟩, scan, ?_, ?_⟩
  · intro same group signed inside
    have shorter := longer ⟨group, signed, inside⟩
    rw [determined _ same] at shorter
    exact Nat.lt_irrefl _ shorter
  · intro free
    apply scan.unsigned
    rintro ⟨group, signed, inside⟩
    exact free group signed inside

/-- `\{+41}`, with the digits of `A`. -/
def sampleSigned : List Char := ['\\', '{', '+', '4', '1', '}']

theorem sampleSigned_resolved :
    unescape sampleSigned = ['A'] ∧ Scan Stands sampleSigned sampleSigned ∧
      ¬ Scan Stands sampleSigned ['A'] := by
  have solid : '\\' ∉ ['{', '+', '4', '1', '}'] := by decide
  have kept : Scan Stands sampleSigned sampleSigned :=
    .char (not_startsGroup_sign _) (Scan.nil.keep solid)
  refine ⟨by decide, kept, fun resolved => ?_⟩
  cases Scan.unique .unsigned kept resolved

end FlowGraph.Text
