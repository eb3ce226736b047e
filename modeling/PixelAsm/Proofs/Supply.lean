import PixelAsm.Proofs.IssueLog

/-!
# Supplying the second pass

What recording does to a log whose arithmetic of the second pass comes last. Issues of
the other stages are appended as they are. In front of an arithmetic instruction of the
second pass the registers that it lacks are handed on, if the program has two passes at
all. Every register that such an instruction reads is then available to it.
-/
namespace PixelAsm

namespace Log

/-! ### Registers that are available -/

/-- The arithmetic stage of the second pass can read the register: the second pass has
written it, or there is no arithmetic in the first pass and a texture instruction of it
has. -/
def Available (log : List Issue) (register : UInt32) : Prop :=
  writes log 2 register = true ∨
    instructionsOn log .alu1 = [] ∧ writes log 1 register = true

/-- At each arithmetic instruction of the second pass the temp registers that it reads were
available. -/
def Supplied (log : List Issue) : Prop :=
  ∀ earlier issue later, log = earlier ++ issue :: later → issue.stage = .alu2 →
    ∀ o ∈ issue.instruction.operands, Code.isTemp o.register = true →
      Available earlier o.register

theorem supplied_nil : Supplied [] := by
  intro earlier issue later split
  simp at split

theorem Supplied.append {log : List Issue} (supplied : Supplied log) (issue : Issue)
    (ready : issue.stage = .alu2 → ∀ o ∈ issue.instruction.operands,
      Code.isTemp o.register = true → Available log o.register) :
    Supplied (log ++ [issue]) := by
  intro earlier other later split late
  -- either the instruction is the new one or there is something behind it
  rcases List.eq_nil_or_concat later with rfl | ⟨behind, last, rfl⟩
  · obtain ⟨rfl, same⟩ := List.append_inj' split rfl
    obtain rfl : issue = other := by simpa using same
    exact ready late
  · -- the instruction stands inside the old log
    rw [List.concat_eq_append, ← List.cons_append, ← List.append_assoc] at split
    obtain ⟨same, -⟩ := List.append_inj' split rfl
    exact supplied earlier other behind same late

theorem instructionsOn_handOn (registers : List UInt32) (stage : Stage) :
    instructionsOn (registers.map handOn) stage =
      if stage = .texture2 then registers.map fun r => .passTexCoord r r Code.swizzleStr
      else [] := by
  induction registers with
  | nil => simp [instructionsOn]
  | cons r rest ih =>
    rw [List.map_cons, ← List.singleton_append, instructionsOn_append, instructionsOn_single, ih]
    cases stage <;> rfl

theorem writes_handOn (register other : UInt32) :
    writes [handOn register] 2 other = true ↔ register = other := by
  simp [writes, handOn, Stage.pass, Instruction.destination]

/-- Handing a register on makes it available and takes nothing away. -/
theorem Available.append {log : List Issue} {register : UInt32}
    (available : Available log register) {more : List Issue}
    (noAlu : instructionsOn more .alu1 = []) : Available (log ++ more) register := by
  rcases available with second | ⟨single, first⟩
  · left
    rw [writes_append, second, Bool.true_or]
  · right
    rw [instructionsOn_append, writes_append, single, noAlu, first]
    exact ⟨rfl, Bool.true_or _⟩

/-- One register is supplied: it is available afterwards, and at most one instruction that
hands it on was appended. -/
theorem supply_available {place : Place} {log next : List Issue} {register : UInt32}
    (supplied : supply place log register = .ok next) :
    (Code.isTemp register = true → Available next register) ∧
      ∃ registers : List UInt32, next = log ++ registers.map handOn := by
  unfold supply at supplied
  -- nothing to do, nothing to read from, a single pass, or an instruction that hands it on
  split at supplied
  next ready =>
    cases supplied
    refine ⟨fun temp => .inl ?_, [], by simp⟩
    simpa [temp] using ready
  next lacking =>
    split at supplied
    · cases supplied
    next written =>
      have first : writes log 1 register = true := by simpa using written
      split at supplied
      next single =>
        cases supplied
        exact ⟨fun _ => .inr ⟨List.isEmpty_iff.mp single, first⟩, [], by simp⟩
      · cases supplied
        refine ⟨fun _ => .inl ?_, [register], rfl⟩
        rw [writes_append, (writes_handOn register register).mpr rfl, Bool.or_true]

theorem supplyAll_available {place : Place} {log next : List Issue} {registers : List UInt32}
    (supplied : supplyAll place log registers = .ok next) :
    (∀ r ∈ registers, Code.isTemp r = true → Available next r) ∧
      ∃ routed : List UInt32, next = log ++ routed.map handOn := by
  induction registers generalizing log with
  | nil =>
    cases supplied
    exact ⟨by simp, [], by simp⟩
  | cons register rest ih =>
    rw [supplyAll] at supplied
    split at supplied
    next middle first =>
      -- what is handed on later does not take earlier registers away
      obtain ⟨ready, routed, rfl⟩ := supply_available first
      obtain ⟨others, more, rfl⟩ := ih supplied
      refine ⟨fun r member temp => ?_, routed ++ more, by simp⟩
      rcases List.mem_cons.mp member with rfl | member
      · exact (ready temp).append (by simp [instructionsOn_handOn])
      · exact others r member temp
    · cases supplied

theorem Supplied.handOn {log : List Issue} (supplied : Supplied log)
    (registers : List UInt32) : Supplied (log ++ registers.map handOn) := by
  induction registers generalizing log with
  | nil => simpa using supplied
  | cons r rest ih =>
    rw [List.map_cons, ← List.singleton_append, ← List.append_assoc]
    exact ih (supplied.append (Log.handOn r) fun late => by cases late)

/-- Recording an issue appends it behind the registers that are handed on to it. -/
theorem record_eq_ok {place : Place} {log next : List Issue} {issue : Issue}
    (recorded : record place log issue = .ok next) :
    ∃ routed : List UInt32, next = log ++ routed.map handOn ++ [issue] ∧
      (issue.stage = .alu2 → ∀ o ∈ issue.instruction.operands, Code.isTemp o.register = true →
        Available (log ++ routed.map handOn) o.register) := by
  unfold record prepare at recorded
  split at recorded
  next late =>
    cases prepared : supplyAll place log (issue.instruction.operands.map (·.register)) with
    | error fault =>
      rw [prepared] at recorded
      cases recorded
    | ok middle =>
      rw [prepared] at recorded
      cases recorded
      obtain ⟨ready, routed, rfl⟩ := supplyAll_available prepared
      exact ⟨routed, rfl, fun _ o member temp =>
        ready o.register (List.mem_map_of_mem member) temp⟩
  next early =>
    cases recorded
    exact ⟨[], by simp, fun late => absurd late early⟩

/-- Recording keeps every read supplied. -/
theorem Supplied.record {place : Place} {log next : List Issue} {issue : Issue}
    (supplied : Supplied log) (recorded : record place log issue = .ok next) :
    Supplied next := by
  obtain ⟨routed, rfl, ready⟩ := record_eq_ok recorded
  exact (supplied.handOn routed).append issue ready

theorem Supplied.recordAll {log next : List Issue} {located : List (Place × Issue)}
    (supplied : Supplied log) (recorded : recordAll log located = .ok next) :
    Supplied next := by
  induction located generalizing log with
  | nil =>
    cases recorded
    exact supplied
  | cons x rest ih =>
    rw [Log.recordAll] at recorded
    split at recorded
    next middle first => exact ih (supplied.record first) recorded
    · cases recorded

/-! ### What recording appends -/

theorem recordAll_extends {log next : List Issue} {located : List (Place × Issue)}
    (recorded : recordAll log located = .ok next) : ∃ more, next = log ++ more := by
  induction located generalizing log with
  | nil =>
    cases recorded
    exact ⟨[], by simp⟩
  | cons x rest ih =>
    rw [recordAll] at recorded
    split at recorded
    next middle first =>
      obtain ⟨routed, rfl, -⟩ := record_eq_ok first
      obtain ⟨others, rfl⟩ := ih recorded
      exact ⟨routed.map handOn ++ [x.2] ++ others, by simp⟩
    · cases recorded

theorem recordAll_early (log : List Issue) {located : List (Place × Issue)}
    (early : ∀ x ∈ located, x.2.stage ≠ .alu2) :
    recordAll log located = .ok (log ++ located.map (·.2)) := by
  induction located generalizing log with
  | nil => simp [recordAll]
  | cons x rest ih =>
    have first : record x.1 log x.2 = .ok (log ++ [x.2]) := by
      unfold record prepare
      rw [if_neg (early x (List.mem_cons_self ..))]
      rfl
    rw [recordAll, first]
    dsimp only
    rw [ih _ fun y member => early y (List.mem_cons_of_mem x member)]
    simp

/-- The temp registers among those read that are not ready, each once. -/
def missing (ready : List UInt32) : List UInt32 → List UInt32
  | [] => []
  | register :: rest =>
    if Code.isTemp register && !ready.contains register then
      register :: missing (register :: ready) rest
    else missing ready rest

/-- The temp registers that instructions read although they were not ready and no instruction
in front has written them, each once, in the order of the reads. -/
def exposed (ready : List UInt32) : List Instruction → List UInt32
  | [] => []
  | i :: rest =>
    let lacking := missing ready (i.operands.map (·.register))
    lacking ++ exposed (i.destination :: (lacking ++ ready)) rest

private theorem known_handOn {log : List Issue} {ready : List UInt32} (register : UInt32)
    (known : ∀ r, r ∈ ready ↔ writes log 2 r = true) :
    ∀ r, r ∈ register :: ready ↔ writes (log ++ [handOn register]) 2 r = true := by
  intro r
  rw [List.mem_cons, known, writes_append, Bool.or_eq_true, writes_handOn, or_comm,
    @eq_comm _ r register]

/-- In a program with two passes the missing registers are handed on. -/
theorem supplyAll_two_pass {place : Place} {log next : List Issue} {ready registers : List UInt32}
    (twoPass : instructionsOn log .alu1 ≠ [])
    (known : ∀ r, r ∈ ready ↔ writes log 2 r = true)
    (supplied : supplyAll place log registers = .ok next) :
    next = log ++ (missing ready registers).map handOn := by
  induction registers generalizing log ready with
  | nil =>
    cases supplied
    simp [missing]
  | cons register rest ih =>
    have contained : ready.contains register = writes log 2 register := by
      rw [Bool.eq_iff_iff, List.contains_iff_mem]
      exact known register
    rw [supplyAll] at supplied
    rw [missing, contained]
    unfold supply at supplied
    -- a register is missing exactly if supplying it does something
    cases outcome : !Code.isTemp register || writes log 2 register with
    | true =>
      rw [if_pos outcome] at supplied
      rw [if_neg (by cases temp : Code.isTemp register <;> simp_all)]
      exact ih twoPass known supplied
    | false =>
      have lacking : Code.isTemp register = true ∧ writes log 2 register = false := by
        simpa using outcome
      rw [if_neg (by simp [outcome])] at supplied
      rw [if_pos (by simp [lacking])]
      cases first : writes log 1 register with
      | false => simp [first] at supplied
      | true =>
        have notEmpty : (instructionsOn log .alu1).isEmpty = false := by
          simpa using twoPass
        simp only [first, Bool.not_true, Bool.false_eq_true, if_false, notEmpty] at supplied
        -- handing on is no arithmetic, and from now on the register is ready
        have stays : instructionsOn (log ++ [handOn register]) .alu1 ≠ [] := by
          rw [instructionsOn_append]
          simp [twoPass]
        have rest := ih stays (known_handOn register known) supplied
        rw [rest]
        simp

theorem supplyAll_single_pass {place : Place} {log next : List Issue}
    {registers : List UInt32} (single : instructionsOn log .alu1 = [])
    (supplied : supplyAll place log registers = .ok next) : next = log := by
  induction registers with
  | nil =>
    cases supplied
    rfl
  | cons register rest ih =>
    rw [supplyAll] at supplied
    unfold supply at supplied
    simp only [single, List.isEmpty_nil, if_true] at supplied
    split at supplied
    next middle first =>
      split at first
      · cases first
        exact ih supplied
      · split at first
        · cases first
        · cases first
          exact ih supplied
    · cases supplied

/-- The registers that arithmetic of the second pass needs from the first one, if that has
arithmetic. -/
def routed (log : List Issue) (ready : List UInt32) (late : List Instruction) : List UInt32 :=
  if instructionsOn log .alu1 = [] then [] else exposed ready late

private theorem known_append {log : List Issue} {ready : List UInt32} (issue : Issue)
    (late : issue.stage = .alu2) (known : ∀ r, r ∈ ready ↔ writes log 2 r = true) :
    ∀ r, r ∈ issue.instruction.destination :: ready ↔ writes (log ++ [issue]) 2 r = true := by
  intro r
  have own : writes [issue] 2 r = true ↔ r = issue.instruction.destination := by
    simp [writes, late, Stage.pass, @eq_comm _ r]
  rw [List.mem_cons, known, writes_append, Bool.or_eq_true, own, or_comm]

private theorem known_handOn_all {log : List Issue} {ready : List UInt32}
    (registers : List UInt32) (known : ∀ r, r ∈ ready ↔ writes log 2 r = true) :
    ∀ r, r ∈ registers ++ ready ↔ writes (log ++ registers.map handOn) 2 r = true := by
  intro r
  have handed : writes (registers.map handOn) 2 r = true ↔ r ∈ registers := by
    simp [writes, handOn, Stage.pass, Instruction.destination]
  rw [List.mem_append, known, writes_append, Bool.or_eq_true, handed, or_comm]

/-- Arithmetic of the second pass is appended in order, with instructions in between that
hand registers on. -/
theorem recordAll_late {log next : List Issue} {located : List (Place × Issue)}
    {ready : List UInt32} (late : ∀ x ∈ located, x.2.stage = .alu2)
    (known : ∀ r, r ∈ ready ↔ writes log 2 r = true)
    (recorded : recordAll log located = .ok next) (stage : Stage) :
    instructionsOn next stage = instructionsOn log stage ++
      match stage with
      | .texture1 | .alu1 => []
      | .texture2 => (routed log ready (located.map (·.2.instruction))).map
          fun r => .passTexCoord r r Code.swizzleStr
      | .alu2 => located.map (·.2.instruction) := by
  induction located generalizing log ready with
  | nil =>
    cases recorded
    cases stage <;> simp [routed, exposed]
  | cons x rest ih =>
    obtain ⟨place, issue⟩ := x
    have own : issue.stage = .alu2 := late _ (List.mem_cons_self ..)
    have others := fun y member => late y (List.mem_cons_of_mem (place, issue) member)
    rw [recordAll, record, prepare, if_pos own] at recorded
    cases prepared : supplyAll place log (issue.instruction.operands.map (·.register)) with
    | error fault =>
      rw [prepared] at recorded
      cases recorded
    | ok middle =>
      rw [prepared] at recorded
      -- whether anything is handed on was settled before the first late issue, as the late ones
      -- add nothing to the arithmetic of the first pass
      by_cases single : instructionsOn log .alu1 = []
      · obtain rfl := supplyAll_single_pass single prepared
        have behind := ih others (known_append issue own known) recorded
        have still : instructionsOn (middle ++ [issue]) .alu1 = [] := by
          rw [instructionsOn_append, single, instructionsOn_single, own]
          rfl
        rw [behind, instructionsOn_append, instructionsOn_single, own]
        cases stage <;> simp [routed, still, single]
      · obtain rfl := supplyAll_two_pass single known prepared
        let lacking := missing ready (issue.instruction.operands.map (·.register))
        have behind := ih others
          (known_append issue own (known_handOn_all lacking known)) recorded
        have still : instructionsOn (log ++ lacking.map handOn ++ [issue]) .alu1 ≠ [] := by
          rw [instructionsOn_append, instructionsOn_append]
          simp [single]
        -- what is ready for the rest: what was, what was handed on, and the new destination
        have whole : routed log ready (issue.instruction :: rest.map (·.2.instruction)) =
            lacking ++ routed (log ++ lacking.map handOn ++ [issue])
              (issue.instruction.destination :: (lacking ++ ready))
              (rest.map (·.2.instruction)) := by
          rw [routed, if_neg single, routed, if_neg still]
          rfl
        rw [behind, List.map_cons, whole, instructionsOn_append, instructionsOn_append,
          instructionsOn_single, own, instructionsOn_handOn]
        cases stage <;> simp

end Log
end PixelAsm
