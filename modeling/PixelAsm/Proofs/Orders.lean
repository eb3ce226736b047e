import PixelAsm.Proofs.Routing

/-!
# Source order and run order

The statements of a program are written in one order and run in another: the queues are run
one after the other. In a ps.1.4 program this puts all of the first pass before all of the
second one and leaves each pass in the order of the source.
-/
namespace PixelAsm

open Syntax

/-! ### Orders of instructions -/

/-- Instructions in some order, with the numbers of the statements that they come from. An
instruction that hands a register on comes from none. -/
abbrev Order := List (Option Nat × Instruction)

namespace Order

/-- The statements that write a register, in order. -/
def writers (order : Order) (register : UInt32) : List Nat :=
  order.filterMap fun x => if x.2.destination = register then x.1 else none

/-- What comes before the instructions of a statement. -/
def ahead (order : Order) (n : Nat) : Order := order.takeWhile (·.1 != some n)

/-- The last statement before a given one that writes a register. Handing the register on
does not count. -/
def lastWriter? (order : Order) (n : Nat) (register : UInt32) : Option Nat :=
  writers (order.ahead n) register |>.getLast?

theorem mem_writers {order : Order} {register : UInt32} {k : Nat} :
    k ∈ order.writers register ↔ ∃ i, (some k, i) ∈ order ∧ i.destination = register := by
  simp only [writers, List.mem_filterMap]
  constructor
  · rintro ⟨⟨label, i⟩, member, known⟩
    split at known
    next same =>
      cases known
      exact ⟨i, member, same⟩
    · cases known
  · rintro ⟨i, member, same⟩
    exact ⟨_, member, if_pos same⟩

/-- The statements come in the order of their keys. -/
def SortedBy (key : Nat → Nat) (order : Order) : Prop :=
  order.Pairwise fun x y => ∀ a b, x.1 = some a → y.1 = some b → key a ≤ key b

/-- Instructions that come from no statement do not matter. -/
theorem SortedBy.insert {key : Nat → Nat} {front back routed : Order}
    (sorted : SortedBy key (front ++ back)) (unnumbered : ∀ x ∈ routed, x.1 = none) :
    SortedBy key (front ++ routed ++ back) := by
  obtain ⟨inFront, inBack, between⟩ := List.pairwise_append.mp sorted
  have silent {x y : Option Nat × Instruction} (member : x ∈ routed ∨ y ∈ routed) (a b : Nat)
      (left : x.1 = some a) (right : y.1 = some b) : key a ≤ key b := by
    rcases member with inX | inY
    · rw [unnumbered x inX] at left
      cases left
    · rw [unnumbered y inY] at right
      cases right
  refine List.pairwise_append.mpr ⟨List.pairwise_append.mpr ⟨inFront, ?_, ?_⟩, inBack, ?_⟩
  · exact List.pairwise_of_forall_mem_list fun x inX y _ => silent (.inl inX)
  · exact fun x _ y inY => silent (.inr inY)
  · intro x inX y inY
    rcases List.mem_append.mp inX with inFront | inRouted
    · exact between x inFront y inY
    · exact silent (.inl inRouted)

/-- The last of the statements that write something and have a smaller key than a given one,
if there are any. -/
def Latest (key : Nat → Nat) (writes : Nat → Prop) (n : Nat) : Option Nat → Prop
  | none => ∀ k, writes k → key n ≤ key k
  | some j => writes j ∧ key j < key n ∧ ∀ k, writes k → key k < key n → key k ≤ key j

section Sorted

variable {key : Nat → Nat} (injective : ∀ a b, key a = key b → a = b)
include injective

theorem Latest.unique {writes : Nat → Prop} {n : Nat} {v w : Option Nat}
    (first : Latest key writes n v) (second : Latest key writes n w) : v = w := by
  cases v with
  | none =>
    cases w with
    | none => rfl
    | some j =>
      have late := first j second.1
      have early := second.2.1
      omega
  | some i =>
    cases w with
    | none =>
      have late := second i first.1
      have early := first.2.1
      omega
    | some j =>
      have below := first.2.2 j second.1 second.2.1
      have above := second.2.2 i first.1 first.2.1
      rw [injective i j (Nat.le_antisymm above below)]

variable {order : Order} (sorted : order.SortedBy key) {n : Nat}
  (present : ∃ i, (some n, i) ∈ order)
include sorted present

/-- Before a statement come those with smaller keys. -/
theorem mem_ahead {k : Nat} {i : Instruction} :
    (some k, i) ∈ order.ahead n ↔ (some k, i) ∈ order ∧ key k < key n := by
  obtain ⟨own, here⟩ := present
  have whole : order.ahead n ++ order.dropWhile (·.1 != some n) = order :=
    List.takeWhile_append_dropWhile
  have other {x : Option Nat × Instruction} (inside : x ∈ order.ahead n) : x.1 ≠ some n := by
    simpa using List.all_eq_true.mp (List.all_takeWhile ..) x inside
  -- the first instruction of the statement is the first that is not ahead of it
  obtain ⟨first, rest, behind, same⟩ : ∃ first rest,
      order.dropWhile (·.1 != some n) = first :: rest ∧ first.1 = some n := by
    cases dropped : order.dropWhile (·.1 != some n) with
    | nil =>
      rw [dropped, List.append_nil] at whole
      rw [← whole] at here
      exact absurd rfl (other here)
    | cons first rest =>
      have stops :=
        List.head?_dropWhile_not (fun x : Option Nat × Instruction => x.1 != some n) order
      rw [dropped] at stops
      exact ⟨first, rest, rfl, by simpa using stops⟩
  rw [behind] at whole
  unfold SortedBy at sorted
  rw [← whole, List.pairwise_append, List.pairwise_cons] at sorted
  obtain ⟨-, ⟨later, -⟩, between⟩ := sorted
  constructor
  · intro inside
    refine ⟨whole ▸ List.mem_append_left _ inside, Nat.lt_of_le_of_ne ?_ ?_⟩
    · exact between _ inside first (by simp) k n rfl same
    · intro equal
      exact other inside (congrArg some (injective k n equal))
  · rintro ⟨inside, smaller⟩
    rw [← whole, List.mem_append, List.mem_cons] at inside
    rcases inside with ahead | rfl | after
    · exact ahead
    · cases same
      exact absurd smaller (Nat.lt_irrefl _)
    · have larger := later _ after n k same rfl
      omega

/-- In a sorted order the last writer is the one with the largest key. -/
theorem lastWriter?_latest (register : UInt32) :
    Latest key (· ∈ order.writers register) n (order.lastWriter? n register) := by
  have ahead (k : Nat) : k ∈ writers (order.ahead n) register ↔
      k ∈ order.writers register ∧ key k < key n := by
    simp only [mem_writers, mem_ahead injective sorted present]
    constructor
    · rintro ⟨i, ⟨member, smaller⟩, same⟩
      exact ⟨⟨i, member, same⟩, smaller⟩
    · rintro ⟨⟨i, member, same⟩, smaller⟩
      exact ⟨i, ⟨member, smaller⟩, same⟩
  -- leaving instructions out keeps the others in order
  have inOrder : (writers (order.ahead n) register).Pairwise (key · ≤ key ·) := by
    unfold writers
    rw [List.pairwise_filterMap]
    have front : (order.ahead n).SortedBy key := sorted.sublist (List.takeWhile_sublist _)
    refine front.imp fun {x y} ordered a left b right => ordered a b ?_ ?_
    · split at left
      · exact left
      · cases left
    · split at right
      · exact right
      · cases right
  unfold lastWriter?
  -- the last of a sorted list is its greatest element
  cases last : (writers (order.ahead n) register).getLast? with
  | none =>
    rw [List.getLast?_eq_none_iff] at last
    intro k writes
    refine Nat.le_of_not_lt fun smaller => ?_
    have member := (ahead k).mpr ⟨writes, smaller⟩
    rw [last] at member
    cases member
  | some j =>
    obtain ⟨others, split⟩ := List.getLast?_eq_some_iff.mp last
    rw [split, List.pairwise_append] at inOrder
    obtain ⟨writes, smaller⟩ := (ahead j).mp (by simp [split])
    refine ⟨writes, smaller, fun k also below => ?_⟩
    have member := (ahead k).mpr ⟨also, below⟩
    rw [split, List.mem_append, List.mem_singleton] at member
    rcases member with earlier | rfl
    · exact inOrder.2.2 k earlier j (List.mem_singleton_self j)
    · exact Nat.le_refl _

theorem lastWriter?_eq_iff (register : UInt32) (w : Option Nat) :
    order.lastWriter? n register = w ↔ Latest key (· ∈ order.writers register) n w := by
  have latest := lastWriter?_latest injective sorted present register
  constructor
  · rintro rfl
    exact latest
  · exact latest.unique injective

end Sorted
end Order

/-! ### Numbered statements -/

namespace Syntax

/-- The contributions of statements behind others with the numbers of the statements. -/
def numberedBehind (legacy : Bool) (before : List Statement) : List Statement → List (Nat × Issue)
  | [] => []
  | s :: rest =>
    (s.issues legacy before).map (before.length, ·) ++ numberedBehind legacy (before ++ [s]) rest

theorem map_numberedBehind (legacy : Bool) (before ss : List Statement) :
    (numberedBehind legacy before ss).map (·.2) = issuesBehind legacy before ss := by
  induction ss generalizing before with
  | nil => rfl
  | cons s rest ih =>
    rw [numberedBehind, issuesBehind, List.map_append, ih, List.map_map]
    simp [Function.comp_def]

theorem mem_numberedBehind {legacy : Bool} {before ss : List Statement} {n : Nat} {i : Issue} :
    (n, i) ∈ numberedBehind legacy before ss ↔
      ∃ front s back, ss = front ++ s :: back ∧ n = before.length + front.length ∧
        i ∈ s.issues legacy (before ++ front) := by
  induction ss generalizing before with
  | nil => simp [numberedBehind]
  | cons s rest ih =>
    rw [numberedBehind, List.mem_append, ih]
    constructor
    · rintro (own | ⟨front, t, back, rfl, rfl, issued⟩)
      · obtain ⟨issue, issued, same⟩ := List.mem_map.mp own
        cases same
        exact ⟨[], s, rest, rfl, rfl, by simpa using issued⟩
      · refine ⟨s :: front, t, back, rfl, ?_, by simpa using issued⟩
        simp only [List.length_append, List.length_cons, List.length_nil]
        omega
    · rintro ⟨front, t, back, split, rfl, issued⟩
      cases front with
      | nil =>
        cases split
        exact .inl (List.mem_map.mpr ⟨i, by simpa using issued, rfl⟩)
      | cons first more =>
        cases split
        refine .inr ⟨more, t, back, rfl, ?_, by simpa using issued⟩
        simp only [List.length_append, List.length_cons, List.length_nil]
        omega

theorem sorted_numberedBehind (legacy : Bool) (before ss : List Statement) :
    (numberedBehind legacy before ss).Pairwise (·.1 ≤ ·.1) := by
  induction ss generalizing before with
  | nil => exact .nil
  | cons s rest ih =>
    rw [numberedBehind, List.pairwise_append]
    refine ⟨?_, ih _, ?_⟩
    · rw [List.pairwise_map]
      exact List.pairwise_of_forall fun _ _ => Nat.le_refl _
    · rintro x own ⟨n, i⟩ behind
      obtain ⟨issue, -, rfl⟩ := List.mem_map.mp own
      obtain ⟨front, -, -, -, rfl, -⟩ := mem_numberedBehind.mp behind
      simp only [List.length_append]
      omega

namespace Shader

/-- The contributions of the program with the numbers of its statements. -/
def numbered (p : Shader) : List (Nat × Issue) := numberedBehind p.isLegacy [] p.statements

/-- The program's own part of a queue. -/
def own (p : Shader) (stage : Stage) : Order :=
  (p.numbered.filter (·.2.stage == stage)).map fun x => (some x.1, x.2.instruction)

/-- A queue with the numbers of the statements. -/
def queued (p : Shader) : Stage → Order
  | .texture2 => p.own .texture2 ++ p.routed.map fun r => (none, .passTexCoord r r Code.swizzleStr)
  | stage => p.own stage

/-- The instructions as the target runs them. -/
def runOrder (p : Shader) : Order := Stage.all.flatMap p.queued

/-- The program's own instructions as they are written. -/
def sourceOrder (p : Shader) : Order := p.numbered.map fun x => (some x.1, x.2.instruction)

theorem map_own (p : Shader) (stage : Stage) :
    (p.own stage).map (·.2) = instructionsOn p.issues stage := by
  rw [own, instructionsOn, issues, ← map_numberedBehind, List.filter_map, List.map_map,
    List.map_map]
  rfl

/-- The numbers are all that is added to the queues. -/
theorem map_queued (p : Shader) (stage : Stage) : (p.queued stage).map (·.2) = p.queues stage := by
  cases stage with
  | texture1 | alu1 | alu2 => exact p.map_own _
  | texture2 =>
    rw [queued, queues, List.map_append, map_own, List.map_map]
    rfl

theorem mem_sourceOrder {p : Shader} {n : Nat} {i : Instruction} :
    (some n, i) ∈ p.sourceOrder ↔ ∃ stage, (n, ⟨stage, i⟩) ∈ p.numbered := by
  simp only [sourceOrder, List.mem_map]
  constructor
  · rintro ⟨⟨m, issue⟩, member, same⟩
    cases same
    exact ⟨issue.stage, member⟩
  · rintro ⟨stage, member⟩
    exact ⟨_, member, rfl⟩

theorem sorted_numbered (p : Shader) : p.numbered.Pairwise (·.1 ≤ ·.1) :=
  sorted_numberedBehind p.isLegacy [] p.statements

theorem sorted_sourceOrder (p : Shader) : p.sourceOrder.SortedBy id := by
  unfold sourceOrder Order.SortedBy
  rw [List.pairwise_map]
  refine p.sorted_numbered.imp fun {x y} ordered a b left right => ?_
  cases left
  cases right
  exact ordered

theorem mem_numbered {p : Shader} {n : Nat} {i : Issue} (member : (n, i) ∈ p.numbered) :
    ∃ s, p.statements[n]? = some s ∧ i ∈ s.issues p.isLegacy (p.statements.take n) := by
  obtain ⟨front, s, back, split, rfl, issued⟩ := mem_numberedBehind.mp member
  refine ⟨s, ?_, ?_⟩
  · simp [split]
  · simpa [split] using issued

end Shader

/-! ### Passes of statements -/

namespace Statement

/-- The statement samples at coordinates that the program has computed. -/
def isDependent : Statement → Bool
  | simple (.texture s) => s.dependent
  | _ => false

def isArithmetic : Statement → Bool
  | simple (.arithmetic _) => true
  | _ => false

end Statement

namespace Shader

/-- The statement runs in the second pass: it stands behind the first block, or samples at
computed coordinates. -/
def isLate (p : Shader) (n : Nat) : Bool :=
  p.firstStatements.length ≤ n || p.firstStatements[n]?.any (·.isDependent)

variable {p : Shader} (dialect : p.InDialect) (modern : p.isLegacy = false)
include dialect modern

/-- The stage of what a statement of the first block contributes. -/
theorem stage_of_first {n : Nat} {i : Issue} (member : (n, i) ∈ p.numbered)
    (inFirst : n < p.firstStatements.length) :
    ∃ s, p.firstStatements[n]? = some s ∧ i.stage =
      if s.isDependent then .texture2 else if s.isArithmetic then .alu1 else .texture1 := by
  obtain ⟨s, found, issued⟩ := mem_numbered member
  rw [statements, List.getElem?_append_left inFirst] at found
  rw [statements, List.take_append_of_le_length (Nat.le_of_lt inFirst)] at issued
  have unmarked : (p.firstStatements.take n).any (·.isMarker) = false := by
    rw [List.any_eq_false]
    intro t inside
    simpa using p.unmarked_first t (List.mem_of_mem_take inside)
  refine ⟨s, found, ?_⟩
  -- definitions, textures of ps.1.4 and arithmetic are all that stands in front of the marker
  have listed := List.mem_of_getElem? found
  simp only [firstStatements, Block.statements, List.mem_append] at listed
  rcases listed with definition | texture | arithmetic
  · obtain ⟨register, -, rfl⟩ := List.mem_map.mp definition
    rw [List.mem_singleton.mp issued]
    rfl
  · obtain ⟨t, inside, rfl⟩ := List.mem_map.mp texture
    obtain ⟨u, rfl⟩ := dialect.first_current modern t inside
    rw [List.mem_singleton.mp issued]
    simp [settingBehind, unmarked, Statement.isDependent, Statement.isArithmetic,
      TextureStatement.statement]
  · obtain ⟨t, -, rfl⟩ := List.mem_map.mp arithmetic
    obtain ⟨instruction, -, rfl⟩ := List.mem_map.mp issued
    simp [settingBehind, unmarked, modern, Statement.isDependent, Statement.isArithmetic]

/-- The stage of what a statement behind the first block contributes. -/
theorem stage_of_second {n : Nat} {i : Issue} (member : (n, i) ∈ p.numbered)
    (behind : p.firstStatements.length ≤ n) :
    ∃ s, p.secondStatements[n - p.firstStatements.length]? = some s ∧
      i.stage = if s.isArithmetic then .alu2 else .texture2 := by
  obtain ⟨s, found, issued⟩ := mem_numbered member
  rw [statements, List.getElem?_append_right behind] at found
  refine ⟨s, found, ?_⟩
  rw [statements, List.take_append, List.take_of_length_le behind] at issued
  unfold secondStatements at found issued
  cases second : p.second? with
  | none => simp [second] at found
  | some block =>
    rw [second] at found issued
    dsimp only at found issued
    cases place : n - p.firstStatements.length with
    | zero =>
      -- the marker contributes nothing
      rw [place] at found issued
      cases found
      cases issued
    | succ m =>
      rw [place] at found issued
      -- anything else in this part stands behind the marker
      have marked : (p.firstStatements ++
          (Statement.simple .phaseMarker :: block.statements).take (m + 1)).any (·.isMarker) =
            true := by
        simp [Statement.isMarker]
      have listed := List.mem_of_getElem? found
      simp only [List.mem_cons, Block.statements, List.mem_append] at listed
      rcases listed with rfl | texture | arithmetic
      · cases issued
      · obtain ⟨t, inside, rfl⟩ := List.mem_map.mp texture
        obtain ⟨u, rfl⟩ := dialect.second_current modern second t inside
        rw [List.mem_singleton.mp issued]
        simp only [settingBehind, marked, Bool.true_or, if_true]
        rfl
      · obtain ⟨t, -, rfl⟩ := List.mem_map.mp arithmetic
        obtain ⟨instruction, -, rfl⟩ := List.mem_map.mp issued
        simp only [settingBehind, marked, Bool.or_true, if_true]
        rfl

/-- A statement runs in the pass that its place and its coordinates tell. -/
theorem pass_eq {n : Nat} {i : Issue} (member : (n, i) ∈ p.numbered) :
    i.stage.pass = if p.isLate n then 2 else 1 := by
  unfold isLate
  by_cases inFirst : n < p.firstStatements.length
  · obtain ⟨s, found, stage⟩ := stage_of_first dialect modern member inFirst
    have notBehind : ¬ p.firstStatements.length ≤ n := Nat.not_le.mpr inFirst
    rw [stage, found]
    cases dependent : s.isDependent <;> cases s.isArithmetic <;>
      simp [notBehind, dependent, Stage.pass]
  · have behind := Nat.le_of_not_lt inFirst
    obtain ⟨s, -, stage⟩ := stage_of_second dialect modern member behind
    rw [stage]
    cases s.isArithmetic <;> simp [behind, Stage.pass]

omit dialect modern in
/-- Arithmetic comes later if it is all that comes later. -/
private theorem index_lt {front back : List Statement}
    (without : ∀ s ∈ front, s.isArithmetic = false) (only : ∀ s ∈ back, s.isArithmetic = true)
    {a b : Nat} {s t : Statement} (left : (front ++ back)[a]? = some s)
    (first : s.isArithmetic = false) (right : (front ++ back)[b]? = some t)
    (second : t.isArithmetic = true) : a < b := by
  refine Nat.lt_of_not_le fun reversed => ?_
  by_cases inFront : b < front.length
  · rw [List.getElem?_append_left inFront] at right
    rw [without t (List.mem_of_getElem? right)] at second
    cases second
  · have behind : front.length ≤ a := Nat.le_trans (Nat.le_of_not_lt inFront) reversed
    rw [List.getElem?_append_right behind] at left
    rw [only s (List.mem_of_getElem? left)] at first
    cases first

omit dialect modern in
private theorem isArithmetic_textures (ts : List TextureStatement) :
    ∀ s ∈ ts.map (·.statement), s.isArithmetic = false := by
  intro s member
  obtain ⟨t, -, rfl⟩ := List.mem_map.mp member
  cases t <;> rfl

omit dialect modern in
private theorem isArithmetic_arithmetic (ts : List Arithmetic) :
    ∀ s ∈ ts.map (Statement.simple <| .arithmetic ·), s.isArithmetic = true := by
  intro s member
  obtain ⟨t, -, rfl⟩ := List.mem_map.mp member
  rfl

/-- In the first pass textures come before arithmetic. -/
private theorem apart_first {x y : Nat × Issue} (inX : x ∈ p.numbered) (inY : y ∈ p.numbered)
    (texture : x.2.stage = .texture1) (arithmetic : y.2.stage = .alu1) : x.1 < y.1 := by
  have inFirst {z : Nat × Issue} (member : z ∈ p.numbered) (first : z.2.stage.pass = 1) :
      z.1 < p.firstStatements.length := by
    rw [pass_eq dialect modern member] at first
    refine Nat.lt_of_not_le fun behind => ?_
    simp [isLate, behind] at first
  obtain ⟨s, left, stageX⟩ := stage_of_first dialect modern inX (inFirst inX (by rw [texture]; rfl))
  obtain ⟨t, right, stageY⟩ :=
    stage_of_first dialect modern inY (inFirst inY (by rw [arithmetic]; rfl))
  rw [firstStatements, Block.statements, ← List.append_assoc] at left right
  refine index_lt ?_ (isArithmetic_arithmetic _) left ?_ right ?_
  · intro u member
    rcases List.mem_append.mp member with definition | texture
    · obtain ⟨register, -, rfl⟩ := List.mem_map.mp definition
      rfl
    · exact isArithmetic_textures _ u texture
  · rw [texture] at stageX
    cases own : s.isArithmetic with
    | false => rfl
    | true => cases dependent : s.isDependent <;> simp [own, dependent] at stageX
  · rw [arithmetic] at stageY
    cases own : t.isArithmetic with
    | true => rfl
    | false => cases dependent : t.isDependent <;> simp [own, dependent] at stageY

/-- In the second pass textures come before arithmetic. -/
private theorem apart_second {x y : Nat × Issue} (inX : x ∈ p.numbered) (inY : y ∈ p.numbered)
    (texture : x.2.stage = .texture2) (arithmetic : y.2.stage = .alu2) : x.1 < y.1 := by
  -- arithmetic of the second pass stands behind the marker
  have behindY : p.firstStatements.length ≤ y.1 := by
    refine Nat.le_of_not_lt fun inFirst => ?_
    obtain ⟨t, -, stage⟩ := stage_of_first dialect modern inY inFirst
    rw [arithmetic] at stage
    cases dependent : t.isDependent <;> cases own : t.isArithmetic <;>
      simp [own, dependent] at stage
  by_cases inFirst : x.1 < p.firstStatements.length
  · exact Nat.lt_of_lt_of_le inFirst behindY
  · have behindX := Nat.le_of_not_lt inFirst
    obtain ⟨s, left, stageX⟩ := stage_of_second dialect modern inX behindX
    obtain ⟨t, right, stageY⟩ := stage_of_second dialect modern inY behindY
    rw [texture] at stageX
    rw [arithmetic] at stageY
    unfold secondStatements at left right
    cases second : p.second? with
    | none => simp [second] at left
    | some block =>
      rw [second] at left right
      dsimp only [Block.statements] at left right
      rw [← List.cons_append] at left right
      have closer : x.1 - p.firstStatements.length < y.1 - p.firstStatements.length := by
        refine index_lt ?_ (isArithmetic_arithmetic _) left ?_ right ?_
        · intro u member
          rcases List.mem_cons.mp member with rfl | texture
          · rfl
          · exact isArithmetic_textures _ u texture
        · cases own : s.isArithmetic with
          | false => rfl
          | true => simp [own] at stageX
        · cases own : t.isArithmetic with
          | true => rfl
          | false => simp [own] at stageY
      omega

/-! ### The run order -/

omit dialect modern in
/-- Entries of two kinds, one behind the other, stay in order if they are put together. -/
private theorem filter_append_filter {entries : List (Nat × Issue)}
    (sorted : entries.Pairwise (·.1 ≤ ·.1)) {f g : Nat × Issue → Bool}
    (apart : ∀ x ∈ entries, ∀ y ∈ entries, f x = true → g y = true → x.1 < y.1) :
    entries.filter f ++ entries.filter g = entries.filter fun x => f x || g x := by
  induction entries with
  | nil => rfl
  | cons x rest ih =>
    obtain ⟨below, tail⟩ := List.pairwise_cons.mp sorted
    have inRest := ih tail fun y inY z inZ =>
      apart y (List.mem_cons_of_mem x inY) z (List.mem_cons_of_mem x inZ)
    cases left : f x with
    | true =>
      have notRight : g x = false := by
        cases right : g x with
        | false => rfl
        | true =>
          exact absurd (apart x (by simp) x (by simp) left right) (Nat.lt_irrefl _)
      simp [left, notRight, inRest]
    | false =>
      cases right : g x with
      | false => simpa [left, right] using inRest
      | true =>
        -- nothing of the first kind can come behind the second
        have none : rest.filter f = [] := by
          rw [List.filter_eq_nil_iff]
          intro y inY first
          have before := apart y (List.mem_cons_of_mem x inY) x (by simp) first right
          have behind := below y inY
          omega
        rw [none] at inRest
        simpa [left, right, none] using inRest

/-- The program's own instructions of a pass. -/
def ownPass (p : Shader) (pass : Nat) : Order :=
  (p.numbered.filter (·.2.stage.pass == pass)).map fun x => (some x.1, x.2.instruction)

omit dialect modern in
private theorem own_append {pass : Nat} {texture arithmetic : Stage}
    (stages : ∀ stage : Stage, (stage == texture || stage == arithmetic) = (stage.pass == pass))
    (apart : ∀ x ∈ p.numbered, ∀ y ∈ p.numbered, x.2.stage = texture → y.2.stage = arithmetic →
      x.1 < y.1) :
    p.own texture ++ p.own arithmetic = p.ownPass pass := by
  rw [own, own, ownPass, ← List.map_append, filter_append_filter p.sorted_numbered]
  · simp only [stages]
  · intro x inX y inY first second
    exact apart x inX y inY (by simpa using first) (by simpa using second)

/-- Apart from the registers that are handed on, the target runs the first pass in the order
of the source and then the second one in that order. -/
theorem runOrder_eq :
    p.runOrder = p.ownPass 1 ++ p.own .texture2 ++
      p.routed.map (fun r => (none, .passTexCoord r r Code.swizzleStr)) ++ p.own .alu2 ∧
    p.own .texture2 ++ p.own .alu2 = p.ownPass 2 := by
  have first : p.own .texture1 ++ p.own .alu1 = p.ownPass 1 := by
    refine own_append (by intro stage; cases stage <;> rfl) fun x inX y inY => ?_
    exact apart_first dialect modern inX inY
  have second : p.own .texture2 ++ p.own .alu2 = p.ownPass 2 := by
    refine own_append (by intro stage; cases stage <;> rfl) fun x inX y inY => ?_
    exact apart_second dialect modern inX inY
  refine ⟨?_, second⟩
  rw [← first]
  simp [runOrder, Stage.all, queued]

/-- The place of a statement in the run order. -/
def runKey (p : Shader) (n : Nat) : Nat :=
  if p.isLate n then p.firstStatements.length + n else n

omit dialect modern in
theorem lt_of_not_isLate {n : Nat} (early : p.isLate n = false) :
    n < p.firstStatements.length := by
  refine Nat.lt_of_not_le fun behind => ?_
  simp [isLate, behind] at early

omit dialect modern in
theorem runKey_injective (a b : Nat) (same : p.runKey a = p.runKey b) : a = b := by
  unfold runKey at same
  cases lateA : p.isLate a <;> cases lateB : p.isLate b <;> simp [lateA, lateB] at same
  · exact same
  · have below := lt_of_not_isLate lateA
    omega
  · have below := lt_of_not_isLate lateB
    omega
  · exact same

omit dialect modern in
theorem runKey_le {a b : Nat} (ordered : a ≤ b) (same : p.isLate a = p.isLate b) :
    p.runKey a ≤ p.runKey b := by
  unfold runKey
  rw [same]
  split <;> omega

omit dialect modern in
/-- The first pass runs before the second, and each pass in the order of the source. -/
theorem runKey_lt_iff {a b : Nat} : p.runKey a < p.runKey b ↔
    p.isLate a = p.isLate b ∧ a < b ∨ p.isLate a = false ∧ p.isLate b = true := by
  unfold runKey
  cases lateA : p.isLate a <;> cases lateB : p.isLate b <;>
    simp only [if_true, Bool.false_eq_true, if_false]
  · simp
  · have below := lt_of_not_isLate lateA
    simp
    omega
  · have below := lt_of_not_isLate lateB
    simp
    omega
  · simp

theorem sorted_runOrder : p.runOrder.SortedBy p.runKey := by
  -- within a pass the keys grow with the numbers
  have late {pass : Nat} {x : Nat × Issue}
      (member : x ∈ p.numbered.filter (·.2.stage.pass == pass)) : p.isLate x.1 = (pass == 2) := by
    obtain ⟨inside, own⟩ := List.mem_filter.mp member
    rw [← beq_iff_eq.mp own, pass_eq dialect modern inside]
    cases p.isLate x.1 <;> rfl
  have within (pass : Nat) : (p.ownPass pass).SortedBy p.runKey := by
    unfold ownPass Order.SortedBy
    rw [List.pairwise_map]
    refine (p.sorted_numbered.filter _).imp_of_mem fun {x y} inX inY ordered a b left right => ?_
    cases left
    cases right
    exact runKey_le ordered ((late inX).trans (late inY).symm)
  -- every key of the first pass is smaller than those of the second
  have passes : (p.ownPass 1 ++ p.ownPass 2).SortedBy p.runKey := by
    refine List.pairwise_append.mpr ⟨within 1, within 2, ?_⟩
    intro x inX y inY a b left right
    obtain ⟨u, memberU, rfl⟩ := List.mem_map.mp inX
    obtain ⟨v, memberV, rfl⟩ := List.mem_map.mp inY
    cases left
    cases right
    exact Nat.le_of_lt (runKey_lt_iff.mpr (.inr ⟨late memberU, late memberV⟩))
  obtain ⟨order, second⟩ := runOrder_eq dialect modern
  rw [order]
  rw [← second, ← List.append_assoc] at passes
  refine passes.insert fun x member => ?_
  obtain ⟨r, -, rfl⟩ := List.mem_map.mp member
  rfl

omit dialect modern in
theorem mem_runOrder {n : Nat} {i : Instruction} :
    (some n, i) ∈ p.runOrder ↔ (some n, i) ∈ p.sourceOrder := by
  have mem_own (stage : Stage) : (some n, i) ∈ p.own stage ↔ (n, ⟨stage, i⟩) ∈ p.numbered := by
    simp only [own, List.mem_map, List.mem_filter, beq_iff_eq]
    constructor
    · rintro ⟨⟨m, issue⟩, ⟨member, rfl⟩, same⟩
      cases same
      exact member
    · exact fun member => ⟨_, ⟨member, rfl⟩, rfl⟩
  have mem_queued (stage : Stage) : (some n, i) ∈ p.queued stage ↔ (some n, i) ∈ p.own stage := by
    cases stage <;> simp [queued]
  simp only [runOrder, List.mem_flatMap, mem_queued, mem_own, mem_sourceOrder]
  constructor
  · exact fun ⟨stage, _, member⟩ => ⟨stage, member⟩
  · exact fun ⟨stage, member⟩ => ⟨stage, by cases stage <;> decide, member⟩

omit dialect modern in
theorem mem_writers_runOrder {register : UInt32} {k : Nat} :
    k ∈ p.runOrder.writers register ↔ k ∈ p.sourceOrder.writers register := by
  simp only [Order.mem_writers, mem_runOrder]

end Shader
end Syntax
end PixelAsm
