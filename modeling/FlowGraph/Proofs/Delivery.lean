import FlowGraph.Command.World
import FlowGraph.Proofs.Agreement

/-! What a run leaves behind. A run is refused if its input cannot be read, is no text
or is no listing, or if its output cannot be created; then nothing changes. Any other
run goes through the methods of the listing once: those with a graph make up the
output, those without one make up the messages and the exit code. If the writing of
the output breaks off, the run fails with a part of it. -/
namespace FlowGraph

namespace Batch

variable {verify : Bool} {b : Body} {g : Graph} {failure : Failure}

/-- The graph that a method contributes. If graphs are verified, nothing is wrong
with it. -/
structure Contributes (verify : Bool) (b : Body) (g : Graph) : Prop where
  built : b.graph = .ok g
  sound : verify = true → Audit.issues g = .ok []

/-- Why a method contributes nothing. -/
inductive Fails (verify : Bool) (b : Body) : Failure → Prop where
  | unbuilt {fault : Construction.Fault} :
      b.graph = .error fault → Fails verify b (.construction fault)
  | unsound {g : Graph} {found : List Issue} : verify = true → b.graph = .ok g →
      Audit.issues g = .ok found → found ≠ [] →
        Fails verify b (.verification (found.map (Finding.ofIssue none)))
  | unaudited {g : Graph} {missing : MissingKey} : verify = true → b.graph = .ok g →
      Audit.issues g = .error missing → Fails verify b (.construction (.missingKey missing))

theorem verified_of_missing {missing : MissingKey} (audited : Audit.issues g = .error missing) :
    verified g = .error (.construction (.missingKey missing)) := by
  rw [verified, Verifier.verifyGraph, audited]
  rfl

theorem graphOf_of_fault {fault : Construction.Fault} (failed : b.graph = .error fault) :
    graphOf verify b = .error (.construction fault) := by
  rw [graphOf, failed]

theorem graphOf_of_graph (built : b.graph = .ok g) :
    graphOf verify b = if verify then verified g else .ok g := by
  rw [graphOf, built]

/-- A method contributes a graph or it fails. -/
theorem graphOf_cases (verify : Bool) (b : Body) :
    (∃ g, graphOf verify b = .ok g ∧ Contributes verify b g) ∨
      ∃ failure, graphOf verify b = .error failure ∧ Fails verify b failure := by
  cases built : b.graph with
  | error fault => exact .inr ⟨_, graphOf_of_fault built, .unbuilt built⟩
  | ok g =>
      rw [graphOf_of_graph built]
      cases verify with
      | false => exact .inl ⟨g, rfl, built, nofun⟩
      | true =>
          rw [if_pos rfl]
          cases audited : Audit.issues g with
          | error missing =>
              rw [verified_of_missing audited]
              exact .inr ⟨_, rfl, .unaudited rfl built audited⟩
          | ok found =>
              rw [verified_eq audited]
              split
              · next clean => exact .inl ⟨g, rfl, built, fun _ => clean ▸ audited⟩
              · next faulty => exact .inr ⟨_, rfl, .unsound rfl built audited faulty⟩

/-- Only a method too long for the keys of its blocks can fail for want of a key. -/
theorem Fails.ne_missingKey (fails : Fails verify b failure)
    (short : b.instructions.length ≤ Key.count 32 - 2) (missing : MissingKey) :
    failure ≠ .construction (.missingKey missing) := by
  rintro rfl
  cases fails with
  | unbuilt failed => exact Construction.build_ne_missingKey short missing failed
  | unaudited _ built audited =>
      obtain ⟨found, audited'⟩ := exists_issues short built
      cases audited.symm.trans audited'

/-- The methods in order, sorted into those that contribute a graph and those that
fail. -/
inductive Sorted (verify : Bool) :
    List Body → List (String × Graph) → List (String × Failure) → Prop where
  | nil : Sorted verify [] [] []
  | drawn {b : Body} {g : Graph} {bodies : List Body} {drawn : List (String × Graph)}
      {failed : List (String × Failure)} : Contributes verify b g →
        Sorted verify bodies drawn failed →
          Sorted verify (b :: bodies) ((b.name, g) :: drawn) failed
  | failed {b : Body} {failure : Failure} {bodies : List Body} {drawn : List (String × Graph)}
      {failed : List (String × Failure)} : Fails verify b failure →
        Sorted verify bodies drawn failed →
          Sorted verify (b :: bodies) drawn ((b.name, failure) :: failed)

end Batch

namespace Command

open Batch

variable {o : Options} {w : World} {program : Program} {target : Option String}

/-- The drawings of some methods, one after another. -/
def drawings (format : Format) (drawn : List (String × Graph)) : String :=
  String.join (drawn.map fun m => renderGraph format m.1 m.2)

/-- An entry for each of some methods that failed. -/
def complaints (failed : List (String × Failure)) : String :=
  String.join (failed.map fun m => s!"{m.1}: {m.2.message}\n")

/-- What is made of the reports of methods that are sorted in this way. -/
structure Accounts (format : Format) (reports : List Report) (drawn : List (String × Graph))
    (failed : List (String × Failure)) : Prop where
  output : renderReports format reports = drawings format drawn
  messages : failureText reports = complaints failed
  count : (Statistics.ofReports reports).failed = failed.length

namespace Accounts

variable {format : Format} {reports : List Report} {drawn : List (String × Graph)}
  {failed : List (String × Failure)}

theorem nil : Accounts format [] [] [] := ⟨rfl, rfl, rfl⟩

theorem drawn_cons (rest : Accounts format reports drawn failed) (key : MethodKey)
    (name : String) (g : Graph) :
    Accounts format (⟨key, name, .ok g⟩ :: reports) ((name, g) :: drawn) failed where
  output := by
    rw [renderReports, List.map_cons, String.join_cons, drawings, List.map_cons, String.join_cons]
    exact congrArg _ rest.output
  messages := by
    rw [failureText, List.map_cons, String.join_cons]
    exact String.empty_append.trans rest.messages
  count := (Nat.zero_add _).trans rest.count

theorem failed_cons (rest : Accounts format reports drawn failed) (key : MethodKey)
    (name : String) (failure : Failure) :
    Accounts format (⟨key, name, .error failure⟩ :: reports) drawn ((name, failure) :: failed) where
  output := by
    rw [renderReports, List.map_cons, String.join_cons]
    exact String.empty_append.trans rest.output
  messages := by
    rw [failureText, List.map_cons, String.join_cons, complaints, List.map_cons, String.join_cons]
    exact congrArg _ rest.messages
  count := (congrArg _ rest.count).trans (Nat.add_comm 1 failed.length)

/-- Methods one after another, of which the first has the place `start`. -/
theorem exists_sorted (format : Format) (verify : Bool) (bodies : List Body) (start : Nat) :
    ∃ drawn failed, Sorted verify bodies drawn failed ∧
      Accounts format ((bodies.zipIdx start).map fun p =>
        buildMethod verify (Key.ofIndex 32 p.2) p.1) drawn failed := by
  induction bodies generalizing start with
  | nil => exact ⟨[], [], .nil, .nil⟩
  | cons b rest ih =>
      obtain ⟨drawn, failed, sorted, accounts⟩ := ih (start + 1)
      rw [List.zipIdx_cons, List.map_cons, buildMethod]
      obtain ⟨g, done, contributes⟩ | ⟨failure, done, fails⟩ := graphOf_cases verify b
      · rw [done]
        exact ⟨_, _, .drawn contributes sorted, accounts.drawn_cons _ _ _⟩
      · rw [done]
        exact ⟨_, _, .failed fails sorted, accounts.failed_cons _ _ _⟩

theorem of_program (format : Format) (verify : Bool) (p : Program) :
    ∃ drawn failed, Sorted verify p.bodies drawn failed ∧
      Accounts format (buildProgram verify p) drawn failed := by
  obtain ⟨drawn, failed, sorted, accounts⟩ := exists_sorted format verify p.bodies 0
  refine ⟨drawn, failed, sorted, ?_⟩
  rw [buildProgram, Program.toList, Table.toList, List.map_map]
  exact accounts

end Accounts

theorem decodeText_eq_ok_iff {bytes : ByteArray} {text : String} :
    decodeText bytes = .ok text ↔ bytes = text.toUTF8 := by
  rw [decodeText, String.fromUTF8?]
  split
  · next found =>
      split at found
      · cases found
        exact ⟨fun same => Except.ok.inj same ▸ rfl,
          fun same => congrArg _ (String.toByteArray_inj.mp same)⟩
      · cases found
  · next found =>
      split at found
      · cases found
      · next invalid =>
          exact ⟨nofun, fun same => absurd (same ▸ text.isValidUTF8) invalid⟩

/-- The input holds the text of a listing. -/
def Lists (input : Except AccessError ByteArray) (p : Program) : Prop :=
  ∃ text : String, input = .ok text.toUTF8 ∧ Listing.read text = .ok p

/-- Where the output of a run goes: to standard output, or to a file that can be
created. -/
inductive Target (o : Options) (w : World) : Option String → Prop where
  | printed : o.output = none → Target o w none
  | saved {path name : String} : o.output = some path → w.creates path = .ok name →
      Target o w (some name)

/-- The input and the output of a run are as they should be. -/
structure Accepted (o : Options) (w : World) (p : Program) (target : Option String) : Prop where
  input : Lists (w.readInput o.input) p
  output : Target o w target

/-- What is wrong with the input or the output of a run. -/
inductive Refused (o : Options) (w : World) : Prop where
  | unread {cause : AccessError} : w.readInput o.input = .error cause → Refused o w
  | notText {bytes : ByteArray} : w.readInput o.input = .ok bytes →
      (∀ text : String, bytes ≠ text.toUTF8) → Refused o w
  | unparsed {text : String} {cause : Listing.ReadError} :
      w.readInput o.input = .ok text.toUTF8 → Listing.read text = .error cause → Refused o w
  | uncreated {path : String} {cause : AccessError} : o.output = some path →
      w.creates path = .error cause → Refused o w

theorem Refused.not_accepted (refused : Refused o w) : ¬ Accepted o w program target := by
  rintro ⟨⟨text, input, parsed⟩, output⟩
  cases refused with
  | unread failed => cases failed.symm.trans input
  | notText found noText =>
      cases found.symm.trans input
      exact noText text rfl
  | unparsed found failed =>
      have same := String.toByteArray_inj.mp (Except.ok.inj (found.symm.trans input))
      cases (same ▸ failed).symm.trans parsed
  | uncreated wanted failed =>
      cases output with
      | printed unwanted => cases wanted.symm.trans unwanted
      | saved wanted' created =>
          cases wanted.symm.trans wanted'
          cases failed.symm.trans created

theorem refused_or_lists (o : Options) (w : World) :
    Refused o w ∨ ∃ program, Lists (w.readInput o.input) program := by
  cases input : w.readInput o.input with
  | error cause => exact .inl (.unread input)
  | ok bytes =>
      by_cases decoded : ∃ text : String, bytes = text.toUTF8
      · obtain ⟨text, rfl⟩ := decoded
        cases parsed : Listing.read text with
        | error cause => exact .inl (.unparsed input parsed)
        | ok program => exact .inr ⟨program, text, rfl, parsed⟩
      · exact .inl (.notText input (not_exists.mp decoded))

theorem refused_or_accepted (o : Options) (w : World) :
    Refused o w ∨ ∃ program target, Accepted o w program target := by
  obtain refused | ⟨program, lists⟩ := refused_or_lists o w
  · exact .inl refused
  · cases wanted : o.output with
    | none => exact .inr ⟨program, none, lists, .printed wanted⟩
    | some path =>
        cases created : w.creates path with
        | error cause => exact .inl (.uncreated wanted created)
        | ok name => exact .inr ⟨program, some name, lists, .saved wanted created⟩

theorem refused_iff : Refused o w ↔ ¬ ∃ program target, Accepted o w program target :=
  ⟨fun refused ⟨_, _, accepted⟩ => refused.not_accepted accepted,
    (refused_or_accepted o w).resolve_right⟩

theorem prepare_of_lists {input : Except AccessError ByteArray} (o : Options)
    (lists : Lists input program) :
    ∃ log, prepare o input = .ok ⟨log, buildProgram o.verify program⟩ := by
  obtain ⟨text, rfl, parsed⟩ := lists
  have decoded : decodeText text.toUTF8 = .ok text := decodeText_eq_ok_iff.mpr rfl
  simp only [prepare, Except.bind, decoded, parsed]
  exact ⟨_, rfl⟩

/-- A run gets ready only from a listing. -/
theorem lists_of_prepare {input : Except AccessError ByteArray} {p : Prepared}
    (ready : prepare o input = .ok p) : ∃ program, Lists input program := by
  rw [prepare] at ready
  split at ready
  · cases ready
  · next text decoded =>
      split at ready
      · cases ready
      · next program parsed =>
          cases input with
          | error cause => cases decoded
          | ok bytes =>
              exact ⟨program, text, congrArg _ (decodeText_eq_ok_iff.mp decoded), parsed⟩

/-- One file has a new content. All other files, and where paths lead, are as before. -/
structure Replaced (w : World) (name : String) (content : ByteArray) (after : World) : Prop where
  file : after.files name = some content
  others : ∀ other, other ≠ name → after.files other = w.files other
  elsewhere : { after with files := w.files } = w

/-- A file that was emptied before it is written. -/
theorem World.replaced_withFile (w : World) (name : String) (first content : ByteArray) :
    Replaced w name content ((w.withFile name first).withFile name content) where
  file := if_pos rfl
  others _ apart := (if_neg apart).trans (if_neg apart)
  elsewhere := rfl

/-- These bytes are all that a run leaves: printed, or as the whole content of one
file. -/
def Delivered (w : World) (bytes : ByteArray) (target : Option String) (done : Trace) : Prop :=
  match target with
  | none => done.output = bytes ∧ done.world = w
  | some name => done.output = .empty ∧ Replaced w name bytes done.world

theorem logText_zero (events : List Event) : logText 0 events = "" := by
  have hidden : (events.filter fun e => e.level.verbosity ≤ 0) = [] := by
    refine List.filter_eq_nil_iff.mpr fun e _ => ?_
    cases e.level <;> decide
  rw [logText, hidden]
  rfl

theorem Prepared.messages_quiet {p : Prepared} (quiet : o.verbosity = 0) (untimed : o.time = false)
    (workers : Nat) (t : Timings) : p.messages o workers t = failureText p.reports := by
  rw [messages, quiet, untimed, logText_zero, logText_zero]
  exact (String.append_empty.trans String.append_empty).trans String.empty_append

/-! The four ways in which a run ends: while it is prepared, for want of an output, in
the middle of its output, and behind it. -/

theorem Trace.pure_apply {α : Type} (a : α) (s : Trace) : (pure a : StateM Trace α) s = (a, s) :=
  rfl

namespace World

theorem host_read (source : Option String) (s : Trace) :
    host.read source s = (s.world.readInput source, s) := rfl

theorem host_clock (s : Trace) :
    host.clock s = (s.world.clock s.looks, { s with looks := s.looks + 1 }) := rfl

theorem host_tell (text : String) (s : Trace) :
    host.tell text s = ((), { s with messages := s.messages ++ text }) := rfl

theorem host_halt (o : Options) (h : Halted) (s : Trace) :
    host.halt o h s = (1, { s with messages := s.messages ++ h.messages o }) := rfl

end World

section Endings

variable {p : Prepared} {halted : Halted} {cause : AccessError} {s s' : Trace} (workers : Nat)

theorem run_of_halted (halts : prepare o (w.readInput o.input) = .error halted) :
    run o w workers =
      { world := w, messages := "" ++ halted.messages o, looks := 2, code := 1 } := by
  simp only [run, Host.run, StateT.run, bind, StateT.bind, World.host_clock, World.host_read,
    World.host_halt, halts]

variable (ready : prepare o (w.readInput o.input) = .ok p)
include ready

theorem run_of_unopened
    (unopened : World.host.openOutput o p { world := w, looks := 3 } = (.error halted, s)) :
    run o w workers = { s with messages := s.messages ++ halted.messages o, code := 1 } := by
  simp only [run, Host.run, StateT.run, bind, StateT.bind, World.host_clock, World.host_read,
    World.host_halt, ready, unopened]

variable (opened : World.host.openOutput o p { world := w, looks := 3 } = (.ok target, s))
include opened

theorem run_of_broken (broken : World.host.write target (p.output o) s = (.error cause, s')) :
    run o w workers =
      { s' with messages := s'.messages ++ (p.breakOff o cause).messages o, code := 1 } := by
  simp only [run, Host.run, StateT.run, bind, StateT.bind, World.host_clock, World.host_read,
    World.host_halt, ready, opened, broken]

theorem run_of_written (written : World.host.write target (p.output o) s = (.ok (), s')) : ∃ t,
    run o w workers =
      { s' with
        messages := s'.messages ++ p.messages o workers t, looks := s'.looks + 1,
        code := p.exitCode } := by
  simp only [run, Host.run, StateT.run, bind, StateT.bind, World.host_clock, World.host_read,
    World.host_tell, Trace.pure_apply, ready, opened, written]
  exact ⟨_, rfl⟩

end Endings

/-- A run that has opened its output. What is written next is delivered. -/
structure Opened (w : World) (target : Option String) (s : Trace) : Prop where
  silent : s.messages = ""
  breaks : s.world.breaks = w.breaks
  delivers : ∀ bytes, Delivered w bytes target (s.write bytes target)

theorem Target.exists_opened (aim : Target o w target) (p : Prepared) :
    ∃ s, World.host.openOutput o p { world := w, looks := 3 } = (.ok target, s) ∧
      Opened w target s := by
  cases aim with
  | printed unwanted =>
      refine ⟨{ world := w, looks := 3 }, ?_, rfl, rfl, fun bytes => ?_⟩
      · rw [Host.openOutput, unwanted]
        rfl
      · exact ⟨ByteArray.empty_append, rfl⟩
  | @saved path name wanted created =>
      refine ⟨{ world := w.withFile name .empty, looks := 3 }, ?_, rfl, rfl, fun bytes => ?_⟩
      · simp only [Host.openOutput, wanted, World.host, bind, StateT.bind, created,
          Trace.pure_apply]
        rfl
      · exact ⟨rfl, w.replaced_withFile name .empty bytes⟩

theorem openOutput_of_uncreated {path : String} {cause : AccessError} (p : Prepared)
    (wanted : o.output = some path) (failed : w.creates path = .error cause) :
    World.host.openOutput o p { world := w, looks := 3 } =
      (.error (p.refuse o path cause), { world := w, looks := 3 }) := by
  simp only [Host.openOutput, wanted, World.host, bind, StateT.bind, failed, Trace.pure_apply]
  rfl

theorem Trace.messages_write (s : Trace) (bytes : ByteArray) (target : Option String) :
    (s.write bytes target).messages = s.messages := by
  cases target <;> rfl

section Accepted

variable {s : Trace} {text : String}

theorem Opened.write_of_through (opened : Opened w target s)
    (through : w.breaks target text.toUTF8 = none) :
    World.host.write target text s = (.ok (), s.write text.toUTF8 target) := by
  rw [← opened.breaks] at through
  simp only [World.host, through]

theorem Opened.write_of_broken (opened : Opened w target s) {part : ByteArray}
    {cause : AccessError} (broken : w.breaks target text.toUTF8 = some (part, cause)) :
    World.host.write target text s = (.error cause, s.write part target) := by
  rw [← opened.breaks] at broken
  simp only [World.host, broken]

/-- What is prepared from a listing is also delivered, up to where its writing breaks
off. -/
theorem run_of_accepted (accepted : Accepted o w program target) (workers : Nat) :
    ∃ p : Prepared, p.reports = buildProgram o.verify program ∧
      (w.breaks target (p.output o).toUTF8 = none →
        Delivered w (p.output o).toUTF8 target (run o w workers).toTrace ∧
        (run o w workers).code = p.exitCode ∧
        ∃ t, (run o w workers).messages = p.messages o workers t) ∧
      ∀ part cause, w.breaks target (p.output o).toUTF8 = some (part, cause) →
        Delivered w part target (run o w workers).toTrace ∧ (run o w workers).code = 1 := by
  obtain ⟨log, ready⟩ := prepare_of_lists o accepted.input
  obtain ⟨s, opens, opened⟩ := accepted.output.exists_opened ⟨log, buildProgram o.verify program⟩
  refine ⟨⟨log, buildProgram o.verify program⟩, rfl, ?_, ?_⟩
  · intro through
    obtain ⟨t, ends⟩ := run_of_written workers ready opens (opened.write_of_through through)
    rw [ends]
    refine ⟨opened.delivers _, rfl, t, ?_⟩
    rw [Trace.messages_write, opened.silent, String.empty_append]
  · intro part cause broken
    rw [run_of_broken workers ready opens (opened.write_of_broken broken)]
    exact ⟨opened.delivers part, rfl⟩

end Accepted

theorem run_of_refused (refused : Refused o w) (workers : Nat) :
    (run o w workers).code = 1 ∧ (run o w workers).output = .empty ∧
      (run o w workers).world = w := by
  cases ready : prepare o (w.readInput o.input) with
  | error halted =>
      rw [run_of_halted workers ready]
      exact ⟨rfl, rfl, rfl⟩
  | ok p =>
      obtain ⟨program, lists⟩ := lists_of_prepare ready
      cases wanted : o.output with
      | none => exact absurd ⟨lists, .printed wanted⟩ refused.not_accepted
      | some path =>
          cases created : w.creates path with
          | error cause =>
              rw [run_of_unopened workers ready (openOutput_of_uncreated p wanted created)]
              exact ⟨rfl, rfl, rfl⟩
          | ok name => exact absurd ⟨lists, .saved wanted created⟩ refused.not_accepted

/-- A run that is refused ends with exit code 1, prints nothing to its output and
changes no file. Every other run leaves the drawings of the methods that contribute a
graph and nothing else, names each method that fails with its failure, and ends with
exit code 0 exactly if there is none. If the writing of the drawings breaks off, it
leaves what has arrived of them and nothing else, and ends with exit code 1. -/
theorem run_faithful (o : Options) (w : World) (workers : Nat) :
    (Refused o w ↔ ¬ ∃ program target, Accepted o w program target) ∧
    (Refused o w → (run o w workers).code = 1 ∧ (run o w workers).output = .empty ∧
      (run o w workers).world = w) ∧
    ∀ program target, Accepted o w program target →
      ∃ drawn failed, Sorted o.verify program.bodies drawn failed ∧
      (w.breaks target (drawings o.format drawn).toUTF8 = none →
        Delivered w (drawings o.format drawn).toUTF8 target (run o w workers).toTrace ∧
        (o.verbosity = 0 → o.time = false → (run o w workers).messages = complaints failed) ∧
        (run o w workers).code = (if failed = [] then 0 else 1)) ∧
      (∀ part cause, w.breaks target (drawings o.format drawn).toUTF8 = some (part, cause) →
        Delivered w part target (run o w workers).toTrace ∧ (run o w workers).code = 1) ∧
      ∀ b ∈ program.bodies, b.instructions.length ≤ Key.count 32 - 2 →
        ∀ missing, ¬ Fails o.verify b (.construction (.missingKey missing)) := by
  refine ⟨refused_iff, fun refused => run_of_refused refused workers,
    fun program target accepted => ?_⟩
  obtain ⟨p, reports, whole, broken⟩ := run_of_accepted accepted workers
  obtain ⟨drawn, failed, sorted, accounts⟩ := Accounts.of_program o.format o.verify program
  rw [← reports] at accounts
  have output : p.output o = drawings o.format drawn := accounts.output
  rw [output] at whole broken
  refine ⟨drawn, failed, sorted, ?_, broken, ?_⟩
  · intro through
    obtain ⟨delivered, code, t, messages⟩ := whole through
    refine ⟨delivered, ?_, ?_⟩
    · intro quiet untimed
      rw [messages, Prepared.messages_quiet quiet untimed, accounts.messages]
    · rw [code, Prepared.exitCode, accounts.count]
      simp only [List.length_eq_zero_iff]
  · intro b _ short missing fails
    exact fails.ne_missingKey short missing rfl

/-- Two files that are found by paths through a directory: a listing of a method that
returns and of one that jumps to a label that is not there, and a file that is no text
and may not be changed. Standard input and standard output are broken. -/
def sampleWorld : World where
  input := .error (.other "Input/output error (os error 5)")
  reads path := if path = "d/a" then .ok "a" else if path = "d/b" then .ok "b" else .error .notFound
  creates path :=
    if path = "/d/../d/a" then .ok "a" else .error (.other "Permission denied (os error 13)")
  breaks target _ :=
    if target = none then some (.empty, .other "Broken pipe (os error 32)") else none
  files name :=
    if name = "a" then
      some "method m() \x7b\n  return\n\x7d\nmethod u() \x7b\n  goto x\n\x7d\n".toUTF8
    else if name = "b" then some ⟨#[255]⟩ else none
  clock look := look

/-- The first file is read and then replaced by the drawing of its first method. With
the other file for an output, without an input and without an output nothing changes. -/
theorem run_faithful_to_sampleWorld :
    (∃ g, Construction.build [⟨none, .ret none⟩] = .ok g ∧
      (run { input := some "d/a", output := some "/d/../d/a" } sampleWorld 1).code = 1 ∧
      (run { input := some "d/a", output := some "/d/../d/a" } sampleWorld 1).messages =
        "u: branch to undefined label `x`\n" ∧
      (run { input := some "d/a", output := some "/d/../d/a" } sampleWorld 1).world.files "a" =
        some (Dot.renderMethod "m" g).toUTF8 ∧
      (run { input := some "d/a", output := some "/d/../d/a" } sampleWorld 1).world.files "b" =
        some ⟨#[255]⟩) ∧
    ((run { input := some "d/a", output := some "d/b" } sampleWorld 1).code = 1 ∧
      (run { input := some "d/a", output := some "d/b" } sampleWorld 1).world = sampleWorld) ∧
    (run { output := some "/d/../d/a" } sampleWorld 1).world = sampleWorld ∧
    ((run { input := some "d/a" } sampleWorld 1).code = 1 ∧
      (run { input := some "d/a" } sampleWorld 1).world = sampleWorld) := by
  have lists : Lists (sampleWorld.readInput (some "d/a"))
      (.ofList [{ name := "m", instructions := [⟨none, .ret none⟩] },
        { name := "u", instructions := [⟨none, .goto ⟨"x"⟩⟩] }]) := ⟨_, rfl, rfl⟩
  refine ⟨?_, ?_, ?_, ?_⟩
  · obtain ⟨drawn, failed, sorted, whole, -⟩ :=
      (run_faithful { input := some "d/a", output := some "/d/../d/a" } sampleWorld 1).2.2 _ _
        ⟨lists, .saved rfl rfl⟩
    obtain ⟨⟨-, replaced⟩, messages, code⟩ := whole rfl
    rw [Program.bodies_ofList] at sorted
    cases sorted with
    | failed fails _ => cases fails with
      | unbuilt failed => cases failed
      | unsound verify => cases verify
      | unaudited verify => cases verify
    | drawn first rest =>
        cases rest with
        | drawn second _ => cases second.built
        | failed second rest =>
            cases rest
            cases second with
            | unsound verify => cases verify
            | unaudited verify => cases verify
            | unbuilt failed =>
                cases failed
                refine ⟨_, first.built, code, messages rfl rfl, ?_, ?_⟩
                · rw [replaced.file, drawings, List.map_singleton, String.join_cons,
                    String.join_nil, String.append_empty]
                  exact rfl
                · exact replaced.others "b" (by decide)
  · have refused : Refused { input := some "d/a", output := some "d/b" } sampleWorld :=
      .uncreated rfl rfl
    obtain ⟨code, -, world⟩ := (run_faithful _ sampleWorld 1).2.1 refused
    exact ⟨code, world⟩
  · have refused : Refused { output := some "/d/../d/a" } sampleWorld := .unread rfl
    exact ((run_faithful _ sampleWorld 1).2.1 refused).2.2
  · obtain ⟨drawn, failed, -, -, broken, -⟩ :=
      (run_faithful { input := some "d/a" } sampleWorld 1).2.2 _ _ ⟨lists, .printed rfl⟩
    obtain ⟨⟨-, world⟩, code⟩ := broken _ _ rfl
    exact ⟨code, world⟩

end Command
end FlowGraph
