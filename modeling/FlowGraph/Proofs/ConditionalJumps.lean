import FlowGraph.Proofs.WrittenLines

/-! Conditional branches, told as patterns. A text is read as one if it is `if`, a
condition, `goto` and a target with gaps between them, and the last two words say
where these pieces are. The only other such text has blanks alone for a condition.
With that one apart, the kind of operation that is read does not depend on how wide
the gaps of a text are. -/
namespace FlowGraph

/-- The four kinds of operations, without what they carry. -/
inductive Op.Kind where
  | plain
  | goto
  | branch
  | ret
deriving DecidableEq

def Op.kind : Op → Op.Kind
  | .plain _ => .plain
  | .goto _ => .goto
  | .branch _ _ => .branch
  | .ret _ => .ret

end FlowGraph

namespace FlowGraph.Listing
open FlowGraph.Text

/-! Texts of conditional branches. -/

/-- A conditional branch as it is spelled, piece by piece. -/
@[ext]
structure SpelledBranch where
  lead : List Char
  condition : List Char
  middle : List Char
  tail : List Char
  target : List Char
  led : Gap lead
  tight : Tight condition
  parted : Gap middle
  spaced : Gap tail
  word : Word target

def SpelledBranch.text (b : SpelledBranch) : List Char :=
  "if".toList ++ (b.lead ++ (b.condition ++ (b.middle ++ ("goto".toList ++ (b.tail ++ b.target)))))

/-- A branch with three or more blanks for its condition. -/
structure HollowBranch where
  lead : List Char
  blank : Char
  last : Char
  tail : List Char
  target : List Char
  led : Gap lead
  isBlank_blank : isBlank blank = true
  isBlank_last : isBlank last = true
  spaced : Gap tail
  word : Word target

def HollowBranch.text (b : HollowBranch) : List Char :=
  "if".toList ++ (b.lead ++ (b.blank :: b.last :: ("goto".toList ++ (b.tail ++ b.target))))

theorem Framed.of_gaps {lead middle tail target : List Char} (led : Gap lead)
    (condition : List Char) (parted : Gap middle) (spaced : Gap tail) (word : Word target) :
    Framed
      ("if".toList ++ (lead ++ (condition ++ (middle ++ ("goto".toList ++ (tail ++ target))))))
      (lead ++ (condition ++ middle)) target where
  shape := ⟨tail, spaced, by simp only [List.append_assoc]⟩
  opened := by
    obtain ⟨c, rest, rfl, blank⟩ := led.first
    exact ⟨c, rest ++ (condition ++ middle), rfl, blank⟩
  closed := by
    obtain ⟨front, c, rfl, blank⟩ := parted.last
    exact ⟨lead ++ (condition ++ front), c, by simp only [List.append_assoc], blank⟩
  word := word

theorem SpelledBranch.framed (b : SpelledBranch) :
    Framed b.text (b.lead ++ (b.condition ++ b.middle)) b.target :=
  .of_gaps b.led b.condition b.parted b.spaced b.word

theorem HollowBranch.framed (b : HollowBranch) :
    Framed b.text (b.lead ++ [b.blank, b.last]) b.target :=
  .of_gaps b.led [b.blank] (gap_singleton b.isBlank_last) b.spaced b.word

theorem exists_span (p : Char → Bool) (cs : List Char) :
    ∃ front back, spanEnd p cs = (front, back) ∧ cs = front ++ back ∧ (∀ c ∈ back, p c = true) ∧
      (front = [] ∨ ∃ before c, front = before ++ [c] ∧ p c = false) := by
  refine ⟨(spanEnd p cs).1, (spanEnd p cs).2, rfl, (spanEnd_append p cs).symm, ?_, ?_⟩
  · intro c member
    exact List.mem_takeWhile_imp (List.mem_reverse.mp member)
  · cases kept : cs.reverse.dropWhile p with
    | nil => exact .inl (by rw [spanEnd, kept]; rfl)
    | cons c before =>
        have first := List.head?_dropWhile_not p cs.reverse
        rw [kept] at first
        exact .inr ⟨before.reverse, c, by simp [spanEnd, kept], by simpa using first⟩

theorem exists_framed {text condition target : List Char}
    (found : branchParts? text = some (condition, target)) :
    ∃ inner, Framed text inner target ∧ conditionIn? inner = some condition := by
  unfold branchParts? at found
  split at found
  · cases found
  · rename_i rest word
    obtain ⟨rfl, ended⟩ := afterWord?_eq_some_iff.mp word
    obtain ⟨before, last, cutTarget, rfl, solid, -⟩ := exists_span (fun c => !isBlank c) rest
    obtain ⟨before, tail, cutSpace, rfl, blank, -⟩ := exists_span isBlank before
    obtain ⟨inner, goto, cutWord, rfl, -, closed⟩ := exists_span (fun c => !isBlank c) before
    simp only [cutTarget, cutSpace, cutWord] at found
    split at found
    · cases found
    · rename_i filled
      simp only [Bool.or_eq_true, List.isEmpty_iff, bne_iff_ne, not_or, ne_eq, not_not] at filled
      obtain ⟨⟨named, spaced⟩, rfl⟩ := filled
      obtain ⟨_, within, pair⟩ := Option.map_eq_some_iff.mp found
      obtain ⟨rfl, rfl⟩ := Prod.mk.inj pair
      refine ⟨inner, ⟨⟨tail, ⟨spaced, blank⟩, by simp only [List.append_assoc]⟩, ?_, ?_, named, ?_⟩,
        within⟩
      · cases inner with
        | nil => cases within
        | cons c rest => exact ⟨c, rest, rfl, ended⟩
      · obtain rfl | ⟨front, c, rfl, blank⟩ := closed
        · cases within
        · exact ⟨front, c, rfl, by simpa using blank⟩
      · intro c member
        simpa using solid c member

/-- A blank is taken for a condition if one is left before it and one behind it. -/
theorem conditionIn?_blank_iff {inner condition : List Char}
    (blank : ∀ c ∈ inner, isBlank c = true) :
    conditionIn? inner = some condition ↔
      ∃ front hole last, inner = front ++ [hole, last] ∧ front ≠ [] ∧ condition = [hole] := by
  have empty : trim inner = [] := by
    obtain ⟨-, empty⟩ | ⟨lead, back, cut, -, -, tight⟩ := trim_cases inner
    · exact empty
    · obtain ⟨c, rest, shape, solid⟩ := tight.first
      have inside := blank c (by rw [cut, shape]; simp)
      rw [solid] at inside
      cases inside
  constructor
  · intro within
    simp only [conditionIn?, empty] at within
    split at within
    · rename_i last hole more rest turned
      cases within
      refine ⟨(more :: rest).reverse, hole, last, ?_, by simp, rfl⟩
      rw [← List.reverse_inj, turned]
      simp
    · cases within
  · rintro ⟨front, hole, last, rfl, filled, rfl⟩
    obtain ⟨more, c, rfl⟩ := (List.eq_nil_or_concat front).resolve_left filled
    rw [conditionIn?, empty]
    simp

theorem SpelledBranch.branchParts?_text (b : SpelledBranch) :
    branchParts? b.text = some (b.condition, b.target) := by
  have trimmed : trim (b.lead ++ (b.condition ++ b.middle)) = b.condition := by
    rw [← List.append_assoc]
    exact b.tight.trim_pad b.led.blank b.parted.blank
  have within := conditionIn?_of_tight (trimmed.symm ▸ b.tight)
  rw [b.framed.branchParts?_eq, within, trimmed, Option.map_some]

theorem HollowBranch.branchParts?_text (b : HollowBranch) :
    branchParts? b.text = some ([b.blank], b.target) := by
  have blank : ∀ c ∈ b.lead ++ [b.blank, b.last], isBlank c = true := by
    intro c member
    simp only [List.mem_append, List.mem_cons, List.not_mem_nil, or_false] at member
    obtain led | rfl | rfl := member
    · exact b.led.blank c led
    · exact b.isBlank_blank
    · exact b.isBlank_last
  have within := (conditionIn?_blank_iff blank).mpr
    ⟨b.lead, b.blank, b.last, rfl, b.led.filled, rfl⟩
  rw [b.framed.branchParts?_eq, within, Option.map_some]

/-- A text between blanks has blanks on both sides of its tight part. -/
theorem Framed.spelled {text inner target : List Char} (framed : Framed text inner target)
    (tight : Tight (trim inner)) :
    ∃ b : SpelledBranch, b.text = text ∧ b.condition = trim inner ∧ b.target = target := by
  obtain ⟨⟨tail, spaced, rfl⟩, ⟨c, rest, opened, first⟩, ⟨front, d, closed, last⟩, word⟩ := framed
  obtain ⟨lead, back, cut, before, behind⟩ : ∃ lead back, inner = lead ++ trim inner ++ back ∧
      (∀ c ∈ lead, isBlank c = true) ∧ ∀ c ∈ back, isBlank c = true := by
    obtain ⟨-, empty⟩ | ⟨lead, back, cut, before, behind, -⟩ := trim_cases inner
    · exact absurd empty tight.ne_nil
    · exact ⟨lead, back, cut, before, behind⟩
  generalize trim inner = condition at tight cut ⊢
  obtain ⟨filled, starts, ends⟩ := tight_iff.mp tight
  have led : lead ≠ [] := by
    rintro rfl
    have solid := (starts_append filled back).mpr starts
    rw [← List.nil_append condition, ← cut, opened, starts_cons, first] at solid
    cases solid
  have parted : back ≠ [] := by
    rintro rfl
    have solid := (ends_append filled lead).mpr ends
    rw [← List.append_nil (lead ++ condition), ← cut, closed] at solid
    simp [Ends, last] at solid
  refine ⟨⟨lead, condition, back, tail, target, ⟨led, before⟩, tight, ⟨parted, behind⟩, spaced,
    word⟩, ?_, rfl, rfl⟩
  simp only [SpelledBranch.text, cut, List.append_assoc]

theorem branchParts?_eq_some_iff {text condition target : List Char} :
    branchParts? text = some (condition, target) ↔
      (∃ b : SpelledBranch, b.text = text ∧ b.condition = condition ∧ b.target = target) ∨
        ∃ b : HollowBranch, b.text = text ∧ [b.blank] = condition ∧ b.target = target := by
  constructor
  · intro found
    obtain ⟨inner, framed, within⟩ := exists_framed found
    obtain ⟨blank, -⟩ | ⟨-, -, -, -, -, tight⟩ := trim_cases inner
    · obtain ⟨⟨tail, spaced, rfl⟩, -, -, word⟩ := framed
      obtain ⟨front, hole, last, rfl, filled, rfl⟩ := (conditionIn?_blank_iff blank).mp within
      have led : ∀ c ∈ front, isBlank c = true := by
        intro c member
        exact blank c (List.mem_append_left _ member)
      exact .inr ⟨⟨front, hole, last, tail, target, ⟨filled, led⟩, blank hole (by simp),
        blank last (by simp), spaced, word⟩, by simp [HollowBranch.text], rfl, rfl⟩
    · rw [conditionIn?_of_tight tight] at within
      cases within
      exact .inl (framed.spelled tight)
  · rintro (⟨b, rfl, rfl, rfl⟩ | ⟨b, rfl, rfl, rfl⟩)
    · exact b.branchParts?_text
    · exact b.branchParts?_text

/-! The pieces are where they are. -/

theorem SpelledBranch.text_injective {b c : SpelledBranch} (same : b.text = c.text) : b = c := by
  have goto : ∀ rest, Starts ("goto".toList ++ rest) := (tight_keyword (by decide)).starts_append
  have parts := b.branchParts?_text.symm.trans ((congrArg branchParts? same).trans
    c.branchParts?_text)
  obtain ⟨condition, target⟩ := Prod.mk.inj (Option.some.inj parts)
  obtain ⟨lead, rest⟩ := eq_of_blanks_append b.led.blank c.led.blank (b.tight.starts_append _)
    (c.tight.starts_append _) (List.append_cancel_left same)
  rw [condition] at rest
  obtain ⟨middle, rest⟩ := eq_of_blanks_append b.parted.blank c.parted.blank (goto _) (goto _)
    (List.append_cancel_left rest)
  obtain ⟨tail, -⟩ := eq_of_blanks_append b.spaced.blank c.spaced.blank b.word.starts
    c.word.starts (List.append_cancel_left rest)
  exact SpelledBranch.ext lead condition middle tail target

def IsSpelled (text : List Char) : Prop := ∃ b : SpelledBranch, b.text = text

def IsHollow (text : List Char) : Prop := ∃ b : HollowBranch, b.text = text

theorem IsSpelled.not_isHollow {text : List Char} (spelled : IsSpelled text) : ¬ IsHollow text := by
  obtain ⟨b, rfl⟩ := spelled
  rintro ⟨h, same⟩
  have parts := b.branchParts?_text.symm.trans ((congrArg branchParts? same.symm).trans
    h.branchParts?_text)
  obtain ⟨condition, -⟩ := Prod.mk.inj (Option.some.inj parts)
  obtain ⟨c, rest, shape, solid⟩ := b.tight.first
  rw [condition] at shape
  cases shape
  rw [h.isBlank_blank] at solid
  cases solid

theorem isSome_branchParts?_iff {text : List Char} :
    (branchParts? text).isSome = true ↔ IsSpelled text ∨ IsHollow text := by
  constructor
  · intro found
    obtain ⟨parts, found⟩ := Option.isSome_iff_exists.mp found
    obtain ⟨b, shape, -⟩ | ⟨b, shape, -⟩ := branchParts?_eq_some_iff.mp found
    · exact .inl ⟨b, shape⟩
    · exact .inr ⟨b, shape⟩
  · rintro (⟨b, rfl⟩ | ⟨b, rfl⟩)
    · rw [b.branchParts?_text, Option.isSome_some]
    · rw [b.branchParts?_text, Option.isSome_some]

theorem gotoTarget?_of_branchParts? {text : List Char} {parts : List Char × List Char}
    (found : branchParts? text = some parts) : gotoTarget? text = none := by
  obtain ⟨inner, framed, -⟩ := exists_framed found
  obtain ⟨tail, -, rfl⟩ := framed.shape
  rw [gotoTarget?, afterWord?_other (by decide) (by decide) (by decide)]

theorem readOp_eq_branch_iff {text : List Char} {condition : String} {target : Label} :
    readOp text = .branch condition target ↔
      ∃ c t, branchParts? text = some (c, t) ∧ condition = resolved c ∧ target = ⟨resolved t⟩ := by
  constructor
  · intro read
    unfold readOp at read
    split at read
    · cases read
    · split at read
      · rename_i c t found
        cases read
        exact ⟨c, t, found, rfl, rfl⟩
      · split at read <;> cases read
  · rintro ⟨c, t, found, rfl, rfl⟩
    simp only [readOp, gotoTarget?_of_branchParts? found, found]

/-! Kinds of operations. -/

theorem kind_readOp (text : List Char) :
    (readOp text).kind =
      if (gotoTarget? text).isSome then .goto
      else if (branchParts? text).isSome then .branch
      else if (returnValue? text).isSome then .ret else .plain := by
  unfold readOp
  cases gotoTarget? text with
  | some target => rfl
  | none =>
      cases branchParts? text with
      | some parts => rfl
      | none => cases returnValue? text <;> rfl

theorem kind_readOp_eq_branch_iff {text : List Char} :
    (readOp text).kind = .branch ↔ (branchParts? text).isSome = true := by
  rw [kind_readOp]
  constructor
  · intro same
    split at same
    · cases same
    · split at same
      · assumption
      · split at same <;> cases same
  · intro found
    obtain ⟨parts, shape⟩ := Option.isSome_iff_exists.mp found
    rw [gotoTarget?_of_branchParts? shape, if_neg (by simp), if_pos found]

section
variable {s t : List Char}

theorem solid_keyword {word : String} (key : word ∈ keywords) :
    ∀ c ∈ word.toList, isBlank c = false := by
  intro c member
  exact isBlank_of_isNameChar (isNameChar_of_mem_keyword key c member)

theorem afterWord?_respaced {word : String} (key : word ∈ keywords) (respaced : Respaced s t)
    {rest : List Char} (found : afterWord? word s = some rest) :
    ∃ more, afterWord? word t = some more ∧ Respaced rest more := by
  obtain ⟨rfl, ended⟩ := afterWord?_eq_some_iff.mp found
  obtain ⟨more, rfl, further⟩ := respaced.of_word (solid_keyword key)
  exact ⟨more, afterWord?_eq_some_iff.mpr ⟨rfl, further.atWordEnd_eq ▸ ended⟩, further⟩

theorem isSome_gotoTarget?_of_respaced (respaced : Respaced s t)
    (found : (gotoTarget? s).isSome = true) : (gotoTarget? t).isSome = true := by
  unfold gotoTarget? at found
  split at found
  · cases found
  · rename_i rest word
    obtain ⟨more, further, inner⟩ := afterWord?_respaced (by decide) respaced word
    have trimmed := inner.trimStart
    have empty : (trimStart rest).isEmpty = (trimStart more).isEmpty := by
      rw [Bool.eq_iff_iff, List.isEmpty_iff, List.isEmpty_iff]
      exact trimmed.eq_nil_iff
    dsimp only at found
    rw [empty, trimmed.any_isBlank] at found
    rw [gotoTarget?, further]
    dsimp only
    split at found
    · cases found
    · rename_i word
      rw [if_neg word]
      rfl

theorem isSome_returnValue?_of_respaced (respaced : Respaced s t)
    (found : (returnValue? s).isSome = true) : (returnValue? t).isSome = true := by
  rw [returnValue?, Option.isSome_map] at found
  obtain ⟨rest, word⟩ := Option.isSome_iff_exists.mp found
  obtain ⟨more, further, -⟩ := afterWord?_respaced (by decide) respaced word
  rw [returnValue?, further]
  rfl

theorem IsSpelled.respaced (spelled : IsSpelled s) (respaced : Respaced s t) : IsSpelled t := by
  obtain ⟨b, rfl⟩ := spelled
  -- The two texts are walked through together, one piece of the branch at a time.
  obtain ⟨_, rfl, afterIf⟩ := respaced.of_word (solid_keyword (by decide))
  obtain ⟨lead, _, rfl, led, afterLead⟩ := afterIf.of_gap b.led (b.tight.starts_append _)
  obtain ⟨condition, _, rfl, stated, afterCondition⟩ :=
    afterLead.of_append rfl b.tight.ends
  obtain ⟨middle, _, rfl, parted, afterMiddle⟩ :=
    afterCondition.of_gap b.parted ((tight_keyword (by decide)).starts_append _)
  obtain ⟨_, rfl, afterGoto⟩ := afterMiddle.of_word (solid_keyword (by decide))
  obtain ⟨tail, _, rfl, spaced, afterTail⟩ := afterGoto.of_gap b.spaced b.word.starts
  rw [← List.append_nil b.target] at afterTail
  obtain ⟨_, rfl, nothing⟩ := afterTail.of_word b.word.solid
  rw [nothing.eq_nil_iff.mp rfl, List.append_nil]
  exact ⟨⟨lead, condition, middle, tail, b.target, led, stated.tight b.tight, parted, spaced,
    b.word⟩, rfl⟩

theorem IsHollow.of_kind_eq (hollow : IsHollow s) (respaced : Respaced s t)
    (same : (readOp s).kind = (readOp t).kind) : IsHollow t := by
  have read := isSome_branchParts?_iff.mpr (.inr hollow)
  rw [← kind_readOp_eq_branch_iff, same, kind_readOp_eq_branch_iff] at read
  obtain spelled | hollow' := isSome_branchParts?_iff.mp read
  · exact absurd hollow (spelled.respaced respaced.symm).not_isHollow
  · exact hollow'

theorem kind_eq_iff_of_respaced (respaced : Respaced s t) :
    (readOp s).kind = (readOp t).kind ↔ (IsHollow s ↔ IsHollow t) := by
  constructor
  · intro same
    exact ⟨fun hollow => hollow.of_kind_eq respaced same,
      fun hollow => hollow.of_kind_eq respaced.symm same.symm⟩
  · intro hollow
    have goto : (gotoTarget? s).isSome = (gotoTarget? t).isSome :=
      Bool.eq_iff_iff.mpr ⟨isSome_gotoTarget?_of_respaced respaced,
        isSome_gotoTarget?_of_respaced respaced.symm⟩
    have ret : (returnValue? s).isSome = (returnValue? t).isSome :=
      Bool.eq_iff_iff.mpr ⟨isSome_returnValue?_of_respaced respaced,
        isSome_returnValue?_of_respaced respaced.symm⟩
    have spelled : IsSpelled s ↔ IsSpelled t :=
      ⟨fun spelled => spelled.respaced respaced, fun spelled => spelled.respaced respaced.symm⟩
    have branch : (branchParts? s).isSome = (branchParts? t).isSome := by
      rw [Bool.eq_iff_iff, isSome_branchParts?_iff, isSome_branchParts?_iff, spelled, hollow]
    rw [kind_readOp, kind_readOp, goto, branch, ret]

end

/-- A text is read as a conditional branch exactly if it is spelled as one, in a
single way, or has a blank for its condition. Apart from the latter, to change the
width of gaps does not change the kind of operation that is read. -/
theorem branch_iff_spelled_or_hollow (text : List Char) :
    (∀ condition target, readOp text = .branch condition target ↔
      (∃ b : SpelledBranch, b.text = text ∧ condition = resolved b.condition ∧
          target = ⟨resolved b.target⟩) ∨
        ∃ b : HollowBranch, b.text = text ∧ condition = resolved [b.blank] ∧
          target = ⟨resolved b.target⟩) ∧
    (∀ b c : SpelledBranch, b.text = text → c.text = text → b = c) ∧
    ¬ (IsSpelled text ∧ IsHollow text) ∧
    ∀ other, Respaced text other →
      ((readOp text).kind = (readOp other).kind ↔ (IsHollow text ↔ IsHollow other)) := by
  refine ⟨?_, ?_, ?_, fun other => kind_eq_iff_of_respaced⟩
  · intro condition target
    rw [readOp_eq_branch_iff]
    constructor
    · rintro ⟨c, t, found, rfl, rfl⟩
      obtain ⟨b, shape, rfl, rfl⟩ | ⟨b, shape, rfl, rfl⟩ := branchParts?_eq_some_iff.mp found
      · exact .inl ⟨b, shape, rfl, rfl⟩
      · exact .inr ⟨b, shape, rfl, rfl⟩
    · rintro (⟨b, rfl, rfl, rfl⟩ | ⟨b, rfl, rfl, rfl⟩)
      · exact ⟨_, _, b.branchParts?_text, rfl, rfl⟩
      · exact ⟨_, _, b.branchParts?_text, rfl, rfl⟩
  · intro b c first second
    exact SpelledBranch.text_injective (first.trans second.symm)
  · rintro ⟨spelled, hollow⟩
    exact spelled.not_isHollow hollow

/-- `if a goto b  goto L`, whose condition has a `goto` of its own. -/
def sampleBranch : SpelledBranch where
  lead := [' ']
  condition := "a goto b".toList
  middle := [' ', ' ']
  tail := [' ']
  target := ['L']
  led := ⟨by simp, isBlank_space⟩
  tight := ⟨⟨'a', " goto b".toList, by decide, by decide⟩, "a goto ".toList, 'b', by decide, by decide⟩
  parted := ⟨by simp, List.all_eq_true.mp (by decide)⟩
  spaced := ⟨by simp, isBlank_space⟩
  word := ⟨by simp, List.forall_mem_singleton.mpr (by decide)⟩

theorem sampleBranch_read :
    readOp "if a goto b  goto L".toList = .branch "a goto b" ⟨"L"⟩ :=
  ((branch_iff_spelled_or_hollow _).1 _ _).mpr (.inl ⟨sampleBranch, by decide, by decide, by decide⟩)

/-- `if   goto L`, with a blank for its condition. -/
def sampleHollow : HollowBranch where
  lead := [' ']
  blank := ' '
  last := ' '
  tail := [' ']
  target := ['L']
  led := ⟨by simp, isBlank_space⟩
  isBlank_blank := by decide
  isBlank_last := by decide
  spaced := ⟨by simp, isBlank_space⟩
  word := ⟨by simp, List.forall_mem_singleton.mpr (by decide)⟩

/-- Three blanks are read as a branch on one of them, and a single blank is not. -/
theorem sampleHollow_read :
    readOp "if   goto L".toList = .branch " " ⟨"L"⟩ ∧ ¬ IsSpelled "if   goto L".toList ∧
      Respaced "if   goto L".toList "if goto L".toList ∧
      readOp "if goto L".toList = .plain "if goto L" := by
  refine ⟨by decide, ?_, ?_, by decide⟩
  · intro spelled
    exact spelled.not_isHollow ⟨sampleHollow, by decide⟩
  · have wide : "if   goto L".toList =
        'i' :: 'f' :: ([' ', ' ', ' '] ++ 'g' :: 'o' :: 't' :: 'o' :: ([' '] ++ ['L'])) := by decide
    have narrow : "if goto L".toList =
        'i' :: 'f' :: ([' '] ++ 'g' :: 'o' :: 't' :: 'o' :: ([' '] ++ ['L'])) := by decide
    have blanks : Gap [' ', ' ', ' '] := ⟨by simp, List.all_eq_true.mp (by decide)⟩
    rw [wide, narrow]
    refine .char (by decide) (.char (by decide) (.gap blanks sampleHollow.led ?_ ?_))
    · exact starts_cons.mpr (by decide)
    · iterate 4 refine .char (by decide) ?_
      exact .gap sampleHollow.spaced sampleHollow.spaced sampleHollow.word.starts
        (.char (by decide) .nil)

end FlowGraph.Listing
