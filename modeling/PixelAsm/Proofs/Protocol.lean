import Mathlib.Data.List.Basic
import PixelAsm.Device.Call

/-!
# Traces of calls

What a device may be asked for, seen as a trace. Programs are numbered in the order in which
they are created, only a living program is bound or destroyed, and a program is handed over
between two calls that mark its beginning and its end. `Protocol` builds such traces step by
step, and `Disciplined` says of a whole trace what follows.
-/
namespace PixelAsm

namespace Call

/-- The call hands over a part of a program. -/
def isUpload : Call → Bool
  | color _ _ _ | alpha _ _ _ | setConstant _ _ | passTexCoord _ _ _ | sampleMap _ _ _ => true
  | create _ | bind _ | unbind | beginProgram | endProgram | destroy _ => false

/-- The call can be made at any time. -/
def isFree : Call → Bool
  | unbind | setConstant _ _ => true
  | _ => false

def isBracket : Call → Bool
  | beginProgram | endProgram => true
  | _ => false

def created? : Call → Option Nat
  | create program => some program
  | _ => none

end Call

/-- The program has been created and not been destroyed. -/
def Living (trace : List Call) (program : Nat) : Prop :=
  .create program ∈ trace ∧ .destroy program ∉ trace

/-- A program has begun, and since then only parts of it were handed over. -/
def Opened (before : List Call) : Prop :=
  ∃ earlier inner, before = earlier ++ .beginProgram :: inner ∧ ∀ c ∈ inner, c.isUpload = true

/-- A program will end, and until then only parts of it are handed over. -/
def Closed (after : List Call) : Prop :=
  ∃ inner later, after = inner ++ .endProgram :: later ∧ ∀ c ∈ inner, c.isUpload = true

/-- What a call needs to have in front of it and behind it. -/
def Call.Placed (before : List Call) (call : Call) (after : List Call) : Prop :=
  match call with
  | bind program | destroy program => Living before program
  | beginProgram => (∃ earlier program, before = earlier ++ [.bind program]) ∧ Closed after
  | endProgram => Opened before
  | color _ _ _ | alpha _ _ _ | passTexCoord _ _ _ | sampleMap _ _ _ =>
    Opened before ∧ Closed after
  | create _ | unbind | setConstant _ _ => True

/-- Every call of the trace is where it may be. -/
def AllPlaced (trace : List Call) : Prop :=
  ∀ before call after, trace = before ++ call :: after → call.Placed before after

structure Disciplined (trace : List Call) : Prop where
  /-- Programs are numbered one by one. -/
  numbered : ∃ count, trace.filterMap Call.created? = List.range' 1 count
  placed : AllPlaced trace
  /-- No program is destroyed twice. -/
  destroyed : ∀ program, trace.count (.destroy program) ≤ 1
  /-- Beginnings and ends take turns. -/
  alternating : ∃ count, trace.filter Call.isBracket =
    (List.replicate count [Call.beginProgram, Call.endProgram]).flatten

/-- The traces of devices that are used as they should be, with the number of programs that
were created. -/
inductive Protocol : Nat → List Call → Prop
  | start : Protocol 0 []
  | create {count : Nat} {trace : List Call} (earlier : Protocol count trace) :
      Protocol (count + 1) (trace ++ [.create (count + 1)])
  | bind {count : Nat} {trace : List Call} (earlier : Protocol count trace) {program : Nat}
      (living : Living trace program) : Protocol count (trace ++ [.bind program])
  | destroy {count : Nat} {trace : List Call} (earlier : Protocol count trace) {program : Nat}
      (living : Living trace program) : Protocol count (trace ++ [.destroy program])
  | free {count : Nat} {trace : List Call} (earlier : Protocol count trace) {call : Call}
      (isFree : call.isFree = true) : Protocol count (trace ++ [call])
  | load {count : Nat} {trace : List Call} (earlier : Protocol count trace) {program : Nat}
      (living : Living trace program) {body : List Call}
      (uploads : ∀ c ∈ body, c.isUpload = true) :
      Protocol count (trace ++ .bind program :: .beginProgram :: (body ++ [.endProgram]))

/-! ### Places -/

theorem Closed.append {after : List Call} (closed : Closed after) (more : List Call) :
    Closed (after ++ more) := by
  obtain ⟨inner, later, rfl, uploads⟩ := closed
  exact ⟨inner, later ++ more, by simp, uploads⟩

theorem Call.Placed.append {before : List Call} {call : Call} {after : List Call}
    (placed : call.Placed before after) (more : List Call) :
    call.Placed before (after ++ more) := by
  cases call with
  | bind program | destroy program | endProgram => exact placed
  | create program | unbind | setConstant register value => trivial
  | beginProgram => exact ⟨placed.1, placed.2.append more⟩
  | color _ _ _ | alpha _ _ _ | passTexCoord _ _ _ | sampleMap _ _ _ =>
    exact ⟨placed.1, placed.2.append more⟩

theorem Call.placed_of_isUpload {before : List Call} {call : Call} {after : List Call}
    (upload : call.isUpload = true) (opened : Opened before) (closed : Closed after) :
    call.Placed before after := by
  cases call with
  | bind | destroy | endProgram | create | unbind | beginProgram => cases upload
  | setConstant register value => trivial
  | color _ _ _ | alpha _ _ _ | passTexCoord _ _ _ | sampleMap _ _ _ => exact ⟨opened, closed⟩

/-- A call of a longer trace belongs to the first part or to the second. -/
theorem AllPlaced.append {trace more : List Call} (earlier : AllPlaced trace)
    (own : ∀ before call after, more = before ++ call :: after →
      call.Placed (trace ++ before) after) : AllPlaced (trace ++ more) := by
  intro before call after split
  rcases List.append_eq_append_iff.mp split with ⟨front, rfl, rest⟩ | ⟨rest, rfl, behind⟩
  · exact own front call after rest
  · cases rest with
    | nil =>
      have whole : more = [] ++ call :: after := behind.symm
      simpa using own [] call after whole
    | cons first rest =>
      obtain ⟨rfl, rfl⟩ := List.cons.inj behind
      exact (earlier before call rest rfl).append more

theorem AllPlaced.push {trace : List Call} (earlier : AllPlaced trace) {call : Call}
    (own : call.Placed trace []) : AllPlaced (trace ++ [call]) := by
  apply earlier.append
  intro before other after only
  obtain ⟨rfl, rfl, rfl⟩ : before = [] ∧ other = call ∧ after = [] := by
    rcases List.singleton_eq_append_iff.mp only with ⟨rfl, rest⟩ | ⟨-, rest⟩
    · obtain ⟨rfl, rfl⟩ := List.cons.inj rest
      exact ⟨rfl, rfl, rfl⟩
    · cases rest
  simpa using own

theorem AllPlaced.load {trace : List Call} (earlier : AllPlaced trace) {program : Nat}
    (living : Living trace program) {body : List Call}
    (uploads : ∀ c ∈ body, c.isUpload = true) :
    AllPlaced (trace ++ .bind program :: .beginProgram :: (body ++ [.endProgram])) := by
  have bound : AllPlaced (trace ++ [.bind program]) := earlier.push living
  have opened {inner : List Call} (own : ∀ c ∈ inner, c.isUpload = true) :
      Opened (trace ++ [.bind program] ++ .beginProgram :: inner) := ⟨_, inner, rfl, own⟩
  have whole :
      AllPlaced (trace ++ [.bind program] ++ .beginProgram :: (body ++ [.endProgram])) := by
    apply bound.append
    intro before call after split
    -- the call begins the program, hands over a part of it, or ends it
    cases before with
    | nil =>
      obtain ⟨rfl, rfl⟩ := List.cons.inj split
      exact ⟨⟨trace, program, by simp⟩, body, [], rfl, uploads⟩
    | cons first before =>
      obtain ⟨rfl, inside⟩ := List.cons.inj split
      rcases List.append_eq_append_iff.mp inside with ⟨front, rfl, last⟩ | ⟨rest, rfl, behind⟩
      · rcases List.singleton_eq_append_iff.mp last with ⟨rfl, only⟩ | ⟨-, only⟩
        · obtain ⟨rfl, rfl⟩ := List.cons.inj only
          exact opened (by simpa using uploads)
        · cases only
      · cases rest with
        | nil =>
          obtain ⟨rfl, rfl⟩ := List.cons.inj behind
          exact opened (by simpa using uploads)
        | cons first rest =>
          obtain ⟨rfl, rfl⟩ := List.cons.inj behind
          have own := uploads call (by simp)
          exact Call.placed_of_isUpload own (opened fun c member => uploads c (by simp [member]))
            ⟨rest, [], rfl, fun c member => uploads c (by simp [member])⟩
  simpa using whole

/-! ### Traces that follow the protocol -/

/-- Handing over parts of a program creates none and marks no beginning or end. -/
theorem Call.other_of_isUpload {call : Call} (upload : call.isUpload = true) :
    call.created? = none ∧ call.isBracket = false := by
  cases call with
  | color | alpha | setConstant | passTexCoord | sampleMap => exact ⟨rfl, rfl⟩
  | create | bind | unbind | beginProgram | endProgram | destroy => cases upload

theorem Call.other_of_isFree {call : Call} (isFree : call.isFree = true) :
    call.created? = none ∧ call.isBracket = false := by
  cases call with
  | unbind | setConstant => exact ⟨rfl, rfl⟩
  | color | alpha | passTexCoord | sampleMap => cases isFree
  | create | bind | beginProgram | endProgram | destroy => cases isFree

theorem Call.placed_of_isFree {call : Call} (isFree : call.isFree = true)
    (before after : List Call) : call.Placed before after := by
  cases call with
  | unbind | setConstant => trivial
  | color | alpha | passTexCoord | sampleMap => cases isFree
  | create | bind | beginProgram | endProgram | destroy => cases isFree

namespace Protocol

variable {count : Nat} {trace : List Call}

theorem placed (protocol : Protocol count trace) : AllPlaced trace := by
  induction protocol with
  | start =>
    intro before call after split
    simp at split
  | create _ ih => exact ih.push trivial
  | bind _ living ih => exact ih.push living
  | destroy _ living ih => exact ih.push living
  | free _ isFree ih => exact ih.push (Call.placed_of_isFree isFree _ _)
  | load _ living uploads ih => exact ih.load living uploads

theorem numbered (protocol : Protocol count trace) :
    trace.filterMap Call.created? = List.range' 1 count := by
  induction protocol with
  | start => rfl
  | create _ ih => simp [ih, Call.created?, List.range'_1_concat, Nat.add_comm]
  | bind _ _ ih | destroy _ _ ih => simp [ih, Call.created?]
  | free _ isFree ih => simp [ih, (Call.other_of_isFree isFree).1]
  | load _ _ uploads ih =>
    have none := List.filterMap_eq_nil_iff.mpr fun c member =>
      (Call.other_of_isUpload (uploads c member)).1
    rw [List.filterMap_append, ih]
    simp [none, List.filterMap_cons, Call.created?]

/-- One program after the other begins and ends. -/
theorem alternating (protocol : Protocol count trace) :
    ∃ rounds, trace.filter Call.isBracket =
      (List.replicate rounds [Call.beginProgram, Call.endProgram]).flatten := by
  induction protocol with
  | start => exact ⟨0, rfl⟩
  | create _ ih | bind _ _ ih | destroy _ _ ih =>
    obtain ⟨rounds, brackets⟩ := ih
    exact ⟨rounds, by simp [brackets, Call.isBracket]⟩
  | free _ isFree ih =>
    obtain ⟨rounds, brackets⟩ := ih
    exact ⟨rounds, by simp [brackets, (Call.other_of_isFree isFree).2]⟩
  | @load _ _ _ _ _ body uploads ih =>
    obtain ⟨rounds, brackets⟩ := ih
    have none : body.filter Call.isBracket = [] := by
      apply List.filter_eq_nil_iff.mpr
      intro c member
      simp [(Call.other_of_isUpload (uploads c member)).2]
    refine ⟨rounds + 1, ?_⟩
    rw [List.replicate_succ', List.flatten_append, List.filter_append, brackets]
    simp [none, List.filter_cons, Call.isBracket]

theorem freely (protocol : Protocol count trace) {calls : List Call}
    (free : ∀ c ∈ calls, c.isFree = true) : Protocol count (trace ++ calls) := by
  induction calls generalizing trace with
  | nil => simpa using protocol
  | cons call rest ih =>
    have first := protocol.free (free call (by simp))
    simpa using ih first fun c member => free c (by simp [member])

/-- A program that lives has one of the numbers given so far. -/
theorem le_of_living (protocol : Protocol count trace) {program : Nat}
    (living : Living trace program) : program ≤ count := by
  have given : program ∈ trace.filterMap Call.created? :=
    List.mem_filterMap.mpr ⟨_, living.1, rfl⟩
  rw [protocol.numbered, List.mem_range'_1] at given
  omega

/-- The next program to be created lives from then on. -/
theorem living_create (protocol : Protocol count trace) :
    Living (trace ++ [.create (count + 1)]) (count + 1) := by
  constructor
  · simp
  · intro destroyed
    have before : .destroy (count + 1) ∈ trace := by simpa using destroyed
    obtain ⟨earlier, later, split⟩ := List.append_of_mem before
    obtain ⟨created, -⟩ : Living earlier (count + 1) := protocol.placed _ _ _ split
    have given : count + 1 ∈ trace.filterMap Call.created? :=
      List.mem_filterMap.mpr ⟨.create (count + 1), by simp [split, created], rfl⟩
    rw [protocol.numbered, List.mem_range'_1] at given
    omega

theorem disciplined (protocol : Protocol count trace) : Disciplined trace where
  numbered := ⟨count, protocol.numbered⟩
  placed := protocol.placed
  destroyed := by
    intro program
    apply Nat.le_of_not_lt
    intro twice
    have both := List.replicate_sublist_iff.mpr twice
    obtain ⟨front, back, split, first, second⟩ := List.cons_sublist_iff.mp both
    -- the second one would destroy a program that lives no more
    have again : .destroy program ∈ back := second.subset (by simp)
    obtain ⟨between, later, rfl⟩ := List.append_of_mem again
    rw [← List.append_assoc] at split
    have living : Living (front ++ between) program := protocol.placed _ _ _ split
    exact living.2 (by simp [first])
  alternating := protocol.alternating

end Protocol

/-- Calls that destroy nothing leave alive what lives. -/
theorem Living.append {trace : List Call} {program : Nat} (living : Living trace program)
    {more : List Call} (kept : .destroy program ∉ more) : Living (trace ++ more) program := by
  constructor
  · simp [living.1]
  · simp [living.2, kept]

end PixelAsm
