import Mathlib.Order.Bounds.Defs
import PixelAsm.Proofs.Linking

/-!
# Which tables can be linked

Linking walks over the steps with the rule that is open and with entries that are filled in
place, and stops at the first fault. We say without a walk when a table of symbols and steps
is consistent, and show that linking accepts exactly the consistent tables: one lemma for
each check, and for the walk a step lemma and an induction. The entries of an accepted table
point to the rule of their symbol and to the first text that it is given.
-/
namespace PixelAsm

/-- The symbol that a step mentions. -/
def Step.symbol? : Step → Option SymbolId
  | .rule id => some id
  | .done => none
  | .require term | .orElse term | .maybe term | .many term => some term.symbol

theorem Step.symbol?_of_term? {step : Step} {term : Term} (has : step.term? = some term) :
    step.symbol? = some term.symbol := by
  cases step <;> cases has <;> rfl

theorem Step.opens_iff {step : Step} {id : SymbolId} : step.opens id = true ↔ step = .rule id := by
  cases step <;> simp [opens]

namespace Grammar

/-- The steps that give a symbol a text. -/
def textSteps (steps : List Step) (id : SymbolId) : Set Nat :=
  { n | ∃ step, steps[n]? = some step ∧ step.givesText id = true }

/-- A table of symbols and a list of steps that fit together. -/
structure Consistent (symbols : List SymbolDef) (steps : List Step) (valueSymbol : SymbolId) :
    Prop where
  ordered : ∀ (i : Nat) (d : SymbolDef), symbols[i]? = some d → d.id = i
  root : ∃ id, steps[0]? = some (.rule id)
  known : ∀ step ∈ steps, ∀ id, step.symbol? = some id → id < symbols.length
  /-- Behind the start of a rule there is an end, and no other rule starts before it. -/
  closed : ∀ (n : Nat) (id : SymbolId), steps[n]? = some (.rule id) →
    ∃ m : Nat, n < m ∧ steps[m]? = some .done ∧
      ∀ k : Nat, n < k → k < m → ∀ other, steps[k]? ≠ some (.rule other)
  unique : ∀ (m n : Nat) (id : SymbolId),
    steps[m]? = some (.rule id) → steps[n]? = some (.rule id) → m = n
  /-- A terminal without a text of its own has one from some step. -/
  texts : ∀ step ∈ steps, ∀ term, step.term? = some term → .rule term.symbol ∉ steps →
    term.symbol ≠ valueSymbol → term.text? = none → (textSteps steps term.symbol).Nonempty

/-- The entries of a grammar point to the steps that concern their symbols. -/
structure CrossLinked (symbols : List SymbolDef) (g : Grammar) : Prop where
  definitions : g.symbols.map SymbolEntry.definition = symbols
  rules : ∀ id entry, g.symbol? id = some entry →
    ∀ n, entry.ruleIndex? = some n ↔ g.step? n = some (.rule id)
  texts : ∀ id entry, g.symbol? id = some entry →
    ∀ n, entry.textIndex? = some n ↔ IsLeast (textSteps g.steps id) n
  defaultText : ∀ id n, IsLeast (textSteps g.steps id) n →
    ∃ term, (g.step? n).bind Step.term? = some term ∧ term.symbol = id ∧
      term.text?.isSome = true ∧ g.defaultText? id = term.text?
  noDefaultText : ∀ id, textSteps g.steps id = ∅ → g.defaultText? id = none

/-! ### Rules that close -/

/-- The steps of a rule come to an end before another rule starts. -/
def Closes : List Step → Prop
  | [] => False
  | .rule _ :: _ => False
  | .done :: _ => True
  | .require _ :: rest | .orElse _ :: rest | .maybe _ :: rest | .many _ :: rest => Closes rest

theorem closes_iff (steps : List Step) :
    Closes steps ↔
      ∃ m : Nat, steps[m]? = some .done ∧ ∀ k < m, ∀ id, steps[k]? ≠ some (.rule id) := by
  induction steps with
  | nil => simp [Closes]
  | cons step rest ih =>
    constructor
    · intro closes
      cases step with
      | rule id => exact closes.elim
      | done => exact ⟨0, rfl, nofun⟩
      | require term | orElse term | maybe term | many term =>
        obtain ⟨m, stop, before⟩ := ih.mp closes
        refine ⟨m + 1, stop, fun k earlier id => ?_⟩
        cases k with
        | zero => nofun
        | succ k => exact before k (by omega) id
    · rintro ⟨m, stop, before⟩
      cases m with
      | zero =>
        cases stop
        trivial
      | succ m =>
        have behind : Closes rest := ih.mpr ⟨m, stop, fun k earlier => before (k + 1) (by omega)⟩
        cases step with
        | rule id => exact absurd rfl (before 0 (by omega) id)
        | done => trivial
        | require term | orElse term | maybe term | many term => exact behind

theorem closes_drop_iff (steps : List Step) (n : Nat) :
    Closes (steps.drop (n + 1)) ↔
      ∃ m : Nat, n < m ∧ steps[m]? = some .done ∧
        ∀ k : Nat, n < k → k < m → ∀ other, steps[k]? ≠ some (.rule other) := by
  simp only [closes_iff, List.getElem?_drop]
  constructor
  · rintro ⟨m, stop, before⟩
    refine ⟨n + 1 + m, by omega, stop, fun k behind earlier other => ?_⟩
    have apart := before (k - (n + 1)) (by omega) other
    rwa [show n + 1 + (k - (n + 1)) = k by omega] at apart
  · rintro ⟨m, behind, stop, before⟩
    refine ⟨m - (n + 1), ?_, fun k earlier => before (n + 1 + k) (by omega) (by omega)⟩
    rwa [show n + 1 + (m - (n + 1)) = m by omega]

/-! ### The checks -/

theorem checkOrder_eq_ok_iff (index : Nat) (symbols : List SymbolDef) :
    checkOrder index symbols = .ok () ↔
      ∀ (i : Nat) (d : SymbolDef), symbols[i]? = some d → d.id = index + i := by
  induction symbols generalizing index with
  | nil => simp [checkOrder]
  | cons first rest ih =>
    unfold checkOrder
    split
    next placed =>
      rw [ih]
      constructor
      · intro behind i d found
        cases i with
        | zero =>
          cases found
          exact placed
        | succ i => exact (behind i d found).trans (Nat.succ_add_eq_add_succ index i)
      · intro all i d found
        exact (all (i + 1) d found).trans (Nat.succ_add_eq_add_succ index i).symm
    next misplaced => exact iff_of_false nofun fun all => misplaced (all 0 first rfl)

theorem checkRoot_eq_ok_iff (steps : List Step) :
    checkRoot steps = .ok () ↔ ∃ id, steps[0]? = some (.rule id) := by
  cases steps with
  | nil => simp [checkRoot]
  | cons step rest => cases step <;> simp [checkRoot]

theorem checkClosed_eq_ok_iff (l : Linking) : checkClosed l = .ok () ↔ l.openRule? = none := by
  unfold checkClosed
  cases l.openRule? <;> simp

theorem checkTexts_eq_ok_iff (entries : List SymbolEntry) (valueSymbol : SymbolId) (index : Nat)
    (steps : List Step) :
    checkTexts entries valueSymbol index steps = .ok () ↔
      ∀ step ∈ steps, ∀ term, step.term? = some term →
        lacksText entries valueSymbol term = false := by
  induction steps generalizing index with
  | nil => simp [checkTexts]
  | cons step rest ih =>
    unfold checkTexts
    rw [List.forall_mem_cons]
    cases step.term? with
    | none => simp [ih]
    | some term => cases lacks : lacksText entries valueSymbol term <;> simp [ih, lacks]

/-! ### The walk over the steps -/

/-- The step that has opened the rule of a symbol. -/
def Linking.ruleIndex? (l : Linking) (id : SymbolId) : Option Nat :=
  (l.entries[id]?).bind SymbolEntry.ruleIndex?

/-- What one step does to the linking. -/
def linkStep (index : Nat) (step : Step) (l : Linking) : Except GrammarError Linking :=
  match step with
  | .rule id => linkRule index id l
  | .done => .ok { l with openRule? := none }
  | .require term | .orElse term | .maybe term | .many term => linkTerm index term l

theorem linkSteps_cons (index : Nat) (step : Step) (rest : List Step) (l : Linking) :
    linkSteps index (step :: rest) l =
      (linkStep index step l).bind (linkSteps (index + 1) rest) := by
  cases step with
  | done => rfl
  | rule id =>
    simp only [linkSteps, linkStep]
    cases linkRule index id l <;> rfl
  | require term | orElse term | maybe term | many term =>
    simp only [linkSteps, linkStep]
    cases linkTerm index term l <;> rfl

/-- The rest of the steps can be linked and leaves no rule open. -/
structure Linkable (l : Linking) (steps : List Step) : Prop where
  known : ∀ step ∈ steps, ∀ id, step.symbol? = some id → id < l.entries.length
  fresh : ∀ id, .rule id ∈ steps → l.ruleIndex? id = none
  once : steps.Pairwise fun step later => ∀ id, step = .rule id → later ≠ .rule id
  closes : l.openRule?.isSome = true → Closes steps
  bodies : ∀ (n : Nat) (id : SymbolId),
    steps[n]? = some (.rule id) → Closes (steps.drop (n + 1))

/-- Only the number of entries, the rules that they point to and the open rule matter. -/
theorem Linkable.congr {l next : Linking} (size : next.entries.length = l.entries.length)
    (rules : ∀ id, next.ruleIndex? id = l.ruleIndex? id)
    (open? : next.openRule? = l.openRule?) {steps : List Step} (linkable : Linkable l steps) :
    Linkable next steps where
  known step member id mentions := size ▸ linkable.known step member id mentions
  fresh id member := (rules id).trans (linkable.fresh id member)
  once := linkable.once
  closes isOpen := linkable.closes (open? ▸ isOpen)
  bodies := linkable.bodies

/-- An open rule asks for nothing but its end. -/
theorem linkable_iff_closes (l : Linking) (steps : List Step) :
    Linkable l steps ↔
      (l.openRule?.isSome = true → Closes steps) ∧ Linkable { l with openRule? := none } steps :=
  ⟨fun linkable => ⟨linkable.closes, { linkable with closes := nofun }⟩,
    fun ⟨closes, linkable⟩ => { linkable with closes }⟩

/-- Outside of rules, a step that opens none has to mention a known symbol. -/
theorem linkable_cons_of_closed {l : Linking} (closed : l.openRule? = none) {step : Step}
    (noRule : ∀ id, step ≠ .rule id) {rest : List Step} :
    Linkable l (step :: rest) ↔
      (∀ id, step.symbol? = some id → id < l.entries.length) ∧ Linkable l rest := by
  have closes {steps : List Step} (isOpen : l.openRule?.isSome = true) : Closes steps := by
    rw [closed] at isOpen
    cases isOpen
  constructor
  · intro linkable
    obtain ⟨first, behind⟩ := List.forall_mem_cons.mp linkable.known
    exact ⟨first,
      { known := behind
        fresh := fun id member => linkable.fresh id (List.mem_cons_of_mem _ member)
        once := linkable.once.of_cons
        closes
        bodies := fun n => linkable.bodies (n + 1) }⟩
  · rintro ⟨first, linkable⟩
    exact
      { known := List.forall_mem_cons.mpr ⟨first, linkable.known⟩
        fresh := fun id member =>
          linkable.fresh id ((List.mem_cons.mp member).resolve_left (noRule id).symm)
        once := List.pairwise_cons.mpr
          ⟨fun _ _ id same => absurd same (noRule id), linkable.once⟩
        closes
        bodies := fun n id found => by
          cases n with
          | zero => exact absurd (Option.some.inj found) (noRule id)
          | succ n => exact linkable.bodies n id found }

theorem linkable_cons_done {l : Linking} {rest : List Step} :
    Linkable l (.done :: rest) ↔ Linkable { l with openRule? := none } rest := by
  have noRule (id : SymbolId) : Step.done ≠ .rule id := nofun
  rw [linkable_iff_closes, linkable_cons_of_closed rfl noRule]
  simp [Closes, Step.symbol?]

theorem linkable_cons_term {l : Linking} {step : Step} {term : Term}
    (has : step.term? = some term) {rest : List Step} :
    Linkable l (step :: rest) ↔ term.symbol < l.entries.length ∧ Linkable l rest := by
  have noRule (id : SymbolId) : step ≠ .rule id := by
    rintro rfl
    cases has
  have closes_cons : Closes (step :: rest) ↔ Closes rest := by
    cases step <;> cases has <;> rfl
  rw [linkable_iff_closes, linkable_cons_of_closed rfl noRule, closes_cons,
    Step.symbol?_of_term? has, linkable_iff_closes l rest]
  simp only [Option.some.injEq, forall_eq']
  exact and_left_comm

/-- The linking behind a step that opens a rule. -/
def Linking.opening (l : Linking) (index : Nat) (id : SymbolId) : Linking :=
  { entries := l.entries.modify id ({ · with ruleIndex? := some index })
    openRule? := some (index, id) }

@[simp]
theorem Linking.length_opening (l : Linking) (index : Nat) (id : SymbolId) :
    (l.opening index id).entries.length = l.entries.length := by
  simp [opening]

theorem Linking.ruleIndex?_opening (l : Linking) (index : Nat) {id other : SymbolId}
    (inside : id < l.entries.length) :
    (l.opening index id).ruleIndex? other =
      if id = other then some index else l.ruleIndex? other := by
  simp only [ruleIndex?, opening, List.getElem?_modify]
  split
  next same =>
    subst other
    simp [List.getElem?_eq_getElem inside]
  next => simp

theorem linkable_cons_rule {l : Linking} {id : SymbolId} {rest : List Step} (index : Nat) :
    Linkable l (.rule id :: rest) ↔
      id < l.entries.length ∧ l.openRule? = none ∧ l.ruleIndex? id = none ∧
        Linkable (l.opening index id) rest := by
  constructor
  · intro linkable
    obtain ⟨first, behind⟩ := List.forall_mem_cons.mp linkable.known
    have inside : id < l.entries.length := first id rfl
    refine ⟨inside, Option.not_isSome_iff_eq_none.mp linkable.closes,
      linkable.fresh id List.mem_cons_self, ?_⟩
    exact
      { known := by simpa using behind
        fresh := fun other member => by
          -- a second step that opens the same rule is excluded
          have apart : id ≠ other := by
            rintro rfl
            exact List.rel_of_pairwise_cons linkable.once member id rfl rfl
          rw [l.ruleIndex?_opening index inside, if_neg apart]
          exact linkable.fresh other (List.mem_cons_of_mem _ member)
        once := linkable.once.of_cons
        closes := fun _ => linkable.bodies 0 id rfl
        bodies := fun n => linkable.bodies (n + 1) }
  · rintro ⟨inside, noneOpen, unopened, linkable⟩
    have others (other : SymbolId) (member : .rule other ∈ rest) :
        id ≠ other ∧ l.ruleIndex? other = none := by
      have fresh := linkable.fresh other member
      rw [l.ruleIndex?_opening index inside] at fresh
      split at fresh
      · cases fresh
      next apart => exact ⟨apart, fresh⟩
    exact
      { known := List.forall_mem_cons.mpr
          ⟨fun other found => Option.some.inj found ▸ inside, by simpa using linkable.known⟩
        fresh := fun other member => by
          rcases List.mem_cons.mp member with same | member
          · cases same
            exact unopened
          · exact (others other member).2
        once := List.pairwise_cons.mpr ⟨fun step member other same again => by
          cases same
          subst step
          exact (others id member).1 rfl, linkable.once⟩
        closes := fun isOpen => by
          rw [noneOpen] at isOpen
          cases isOpen
        bodies := fun n other found => by
          cases n with
          | zero => exact linkable.closes rfl
          | succ n => exact linkable.bodies n other found }

theorem linkRule_eq_ok_iff {index : Nat} {id : SymbolId} {l next : Linking} :
    linkRule index id l = .ok next ↔
      id < l.entries.length ∧ l.openRule? = none ∧ l.ruleIndex? id = none ∧
        next = l.opening index id := by
  unfold linkRule Linking.ruleIndex?
  cases known : l.entries[id]? with
  | none =>
    have outside := List.getElem?_eq_none_iff.mp known
    exact iff_of_false nofun fun ⟨inside, _⟩ => Nat.not_lt.mpr outside inside
  | some entry =>
    obtain ⟨inside, -⟩ := List.getElem?_eq_some_iff.mp known
    obtain ⟨definition, textIndex?, ruleIndex?⟩ := entry
    cases l.openRule? with
    | some opened => simp
    | none => cases ruleIndex? <;> simp [inside, Linking.opening, eq_comm]

theorem exists_linkTerm_iff (index : Nat) {term : Term} {l : Linking} :
    (∃ next, linkTerm index term l = .ok next) ↔ term.symbol < l.entries.length := by
  unfold linkTerm
  cases known : l.entries[term.symbol]? with
  | none =>
    have outside := List.getElem?_eq_none_iff.mp known
    exact iff_of_false nofun (Nat.not_lt.mpr outside)
  | some entry =>
    obtain ⟨inside, -⟩ := List.getElem?_eq_some_iff.mp known
    obtain ⟨definition, textIndex?, ruleIndex?⟩ := entry
    refine iff_of_true ?_ inside
    cases term.text? <;> cases textIndex? <;> exact ⟨_, rfl⟩

/-- A term changes nothing but where a text is found. -/
theorem linkTerm_keeps {index : Nat} {term : Term} {l next : Linking}
    (ok : linkTerm index term l = .ok next) :
    next.entries.length = l.entries.length ∧ (∀ id, next.ruleIndex? id = l.ruleIndex? id) ∧
      next.openRule? = l.openRule? := by
  unfold linkTerm at ok
  split at ok
  · cases ok
  · split at ok
    · cases ok
      refine ⟨List.length_modify .., fun id => ?_, rfl⟩
      simp only [Linking.ruleIndex?, List.getElem?_modify]
      split <;> cases l.entries[id]? <;> rfl
    · cases ok
      exact ⟨rfl, fun _ => rfl, rfl⟩

/-- One step can be linked, and the rest behind it, exactly if the steps can. -/
theorem linkable_cons {l : Linking} {step : Step} {rest : List Step} (index : Nat) :
    Linkable l (step :: rest) ↔ ∃ next, linkStep index step l = .ok next ∧ Linkable next rest := by
  have term {term : Term} (has : step.term? = some term) :
      Linkable l (step :: rest) ↔
        ∃ next, linkTerm index term l = .ok next ∧ Linkable next rest := by
    rw [linkable_cons_term has]
    constructor
    · rintro ⟨inside, linkable⟩
      obtain ⟨next, ok⟩ := (exists_linkTerm_iff index).mpr inside
      obtain ⟨size, rules, open?⟩ := linkTerm_keeps ok
      exact ⟨next, ok, linkable.congr size rules open?⟩
    · rintro ⟨next, ok, linkable⟩
      obtain ⟨size, rules, open?⟩ := linkTerm_keeps ok
      exact ⟨(exists_linkTerm_iff index).mp ⟨next, ok⟩,
        linkable.congr size.symm (fun id => (rules id).symm) open?.symm⟩
  cases step with
  | rule id =>
    simp only [linkable_cons_rule index, linkStep, linkRule_eq_ok_iff]
    constructor
    · rintro ⟨inside, noneOpen, unopened, linkable⟩
      exact ⟨_, ⟨inside, noneOpen, unopened, rfl⟩, linkable⟩
    · rintro ⟨next, ⟨inside, noneOpen, unopened, rfl⟩, linkable⟩
      exact ⟨inside, noneOpen, unopened, linkable⟩
  | done => simp [linkable_cons_done, linkStep]
  | require _ | orElse _ | maybe _ | many _ => exact term rfl

theorem exists_linkSteps_iff (index : Nat) {steps : List Step} {l : Linking} :
    (∃ linked, linkSteps index steps l = .ok linked ∧ linked.openRule? = none) ↔
      Linkable l steps := by
  induction steps generalizing index l with
  | nil =>
    constructor
    · rintro ⟨linked, ok, closed⟩
      cases ok
      exact ⟨nofun, nofun, .nil, fun isOpen => by simp [closed] at isOpen, nofun⟩
    · intro linkable
      exact ⟨l, rfl, Option.not_isSome_iff_eq_none.mp linkable.closes⟩
  | cons step rest ih =>
    rw [linkable_cons index]
    simp only [linkSteps_cons, ← ih (index + 1)]
    cases linkStep index step l <;> simp [Except.bind]

/-! ### Tables as a whole -/

theorem pairwise_rules_iff (steps : List Step) :
    steps.Pairwise (fun step later => ∀ id, step = .rule id → later ≠ .rule id) ↔
      ∀ (m n : Nat) (id : SymbolId),
        steps[m]? = some (.rule id) → steps[n]? = some (.rule id) → m = n := by
  rw [List.pairwise_iff_getElem]
  constructor
  · intro once m n id first second
    obtain ⟨inside, first⟩ := List.getElem?_eq_some_iff.mp first
    obtain ⟨inside', second⟩ := List.getElem?_eq_some_iff.mp second
    rcases Nat.lt_trichotomy m n with before | same | behind
    · exact absurd second (once m n inside inside' before id first)
    · exact same
    · exact absurd first (once n m inside' inside behind id second)
  · intro unique m n inside inside' before id first second
    have same := unique m n id (List.getElem?_eq_some_iff.mpr ⟨inside, first⟩)
      (List.getElem?_eq_some_iff.mpr ⟨inside', second⟩)
    omega

/-- Before the first step, what has to hold of the steps is what consistency says of them. -/
theorem linkable_start_iff (symbols : List SymbolDef) (steps : List Step) :
    Linkable { entries := symbols.map ({ definition := · }) } steps ↔
      (∀ step ∈ steps, ∀ id, step.symbol? = some id → id < symbols.length) ∧
      (∀ (n : Nat) (id : SymbolId), steps[n]? = some (.rule id) → Closes (steps.drop (n + 1))) ∧
      ∀ (m n : Nat) (id : SymbolId),
        steps[m]? = some (.rule id) → steps[n]? = some (.rule id) → m = n := by
  rw [← pairwise_rules_iff]
  constructor
  · intro linkable
    exact ⟨by simpa using linkable.known, linkable.bodies, linkable.once⟩
  · rintro ⟨known, bodies, once⟩
    refine ⟨by simpa using known, fun id _ => ?_, once, nofun, bodies⟩
    simp only [Linking.ruleIndex?, List.getElem?_map]
    cases symbols[id]? <;> rfl

section

variable {steps : List Step}

theorem mem_steps_iff_findIdx? (id : SymbolId) :
    .rule id ∈ steps ↔ steps.findIdx? (·.opens id) ≠ none := by
  rw [Ne, List.findIdx?_eq_none_iff]
  simp [Step.opens_iff]

theorem findIdx?_opens_eq_some_iff
    (unique : ∀ (m n : Nat) (id : SymbolId),
      steps[m]? = some (.rule id) → steps[n]? = some (.rule id) → m = n)
    (id : SymbolId) (n : Nat) :
    steps.findIdx? (·.opens id) = some n ↔ steps[n]? = some (.rule id) := by
  have sound {n : Nat} (found : steps.findIdx? (·.opens id) = some n) :
      steps[n]? = some (.rule id) := by
    obtain ⟨inside, opens, -⟩ := List.findIdx?_eq_some_iff_getElem.mp found
    exact List.getElem?_eq_some_iff.mpr ⟨inside, Step.opens_iff.mp opens⟩
  constructor
  · exact sound
  · intro there
    obtain ⟨m, found⟩ := Option.ne_none_iff_exists'.mp
      ((mem_steps_iff_findIdx? id).mp (List.mem_of_getElem? there))
    rw [found, unique m n id (sound found) there]

theorem findIdx?_givesText_eq_some_iff (id : SymbolId) (n : Nat) :
    steps.findIdx? (·.givesText id) = some n ↔ IsLeast (textSteps steps id) n := by
  rw [List.findIdx?_eq_some_iff_getElem]
  constructor
  · rintro ⟨inside, gives, before⟩
    refine ⟨⟨_, List.getElem?_eq_getElem inside, gives⟩, ?_⟩
    rintro m ⟨step, found, gives'⟩
    obtain ⟨inside', rfl⟩ := List.getElem?_eq_some_iff.mp found
    exact Nat.le_of_not_lt fun earlier => before m earlier gives'
  · rintro ⟨⟨step, found, gives⟩, least⟩
    obtain ⟨inside, rfl⟩ := List.getElem?_eq_some_iff.mp found
    refine ⟨inside, gives, fun m earlier gives' => ?_⟩
    have bound : n ≤ m := least ⟨_, List.getElem?_eq_getElem (by omega), gives'⟩
    omega

theorem textSteps_nonempty_iff (id : SymbolId) :
    (textSteps steps id).Nonempty ↔ steps.findIdx? (·.givesText id) ≠ none := by
  constructor
  · rintro ⟨n, step, found, gives⟩ silent
    simp [List.findIdx?_eq_none_iff.mp silent step (List.mem_of_getElem? found)] at gives
  · intro loud
    obtain ⟨n, found⟩ := Option.ne_none_iff_exists'.mp loud
    exact ⟨n, ((findIdx?_givesText_eq_some_iff id n).mp found).1⟩

end

section

variable {symbols : List SymbolDef} {steps : List Step} {valueSymbol : SymbolId}

/-- What is recorded of a symbol behind all the steps. -/
theorem recorded_start (id : SymbolId) (d : SymbolDef) :
    recorded steps 0 id { definition := d } =
      { definition := d, textIndex? := steps.findIdx? (·.givesText id)
        ruleIndex? := steps.findIdx? (·.opens id) } := by
  simp [recorded]

theorem lacksText_eq_false_iff {term : Term} (inside : term.symbol < symbols.length) :
    lacksText (symbols.mapIdx fun id d => recorded steps 0 id { definition := d }) valueSymbol term
        = false ↔
      (.rule term.symbol ∉ steps → term.symbol ≠ valueSymbol → term.text? = none →
        (textSteps steps term.symbol).Nonempty) := by
  rw [mem_steps_iff_findIdx?, textSteps_nonempty_iff, lacksText, List.getElem?_mapIdx,
    List.getElem?_eq_getElem inside, Option.map_some, recorded_start]
  cases steps.findIdx? (·.opens term.symbol) <;> cases steps.findIdx? (·.givesText term.symbol) <;>
    cases term.text? <;> simp

theorem exists_link_iff (initialContexts : UInt32) :
    (∃ g, link symbols steps valueSymbol initialContexts = .ok g) ↔
      Consistent symbols steps valueSymbol := by
  simp only [link_eq_ok_iff, checkOrder_eq_ok_iff, checkRoot_eq_ok_iff, checkClosed_eq_ok_iff,
    checkTexts_eq_ok_iff]
  constructor
  · rintro ⟨g, ordered, root, linked, walked, closed, texts, -⟩
    have linkable := (exists_linkSteps_iff 0).mp ⟨linked, walked, closed⟩
    obtain ⟨known, bodies, unique⟩ := (linkable_start_iff symbols steps).mp linkable
    rw [linkSteps_start_entries walked] at texts
    exact
      { ordered := fun i d found => (ordered i d found).trans (Nat.zero_add i)
        root, known, unique
        closed := fun n id opens => (closes_drop_iff steps n).mp (bodies n id opens)
        texts := fun step member term has =>
          (lacksText_eq_false_iff (known step member _ (Step.symbol?_of_term? has))).mp
            (texts step member term has) }
  · intro consistent
    have linkable := (linkable_start_iff symbols steps).mpr ⟨consistent.known,
      fun n id opens => (closes_drop_iff steps n).mpr (consistent.closed n id opens),
      consistent.unique⟩
    obtain ⟨linked, walked, closed⟩ := (exists_linkSteps_iff 0).mpr linkable
    refine ⟨_, fun i d found => (consistent.ordered i d found).trans (Nat.zero_add i).symm,
      consistent.root, linked, walked, closed, fun step member term has => ?_, rfl⟩
    rw [linkSteps_start_entries walked]
    exact (lacksText_eq_false_iff
      (consistent.known step member _ (Step.symbol?_of_term? has))).mpr
        (consistent.texts step member term has)

/-- The entry of a symbol in a linked grammar. -/
theorem symbol?_of_link {initialContexts : UInt32} {g : Grammar}
    (ok : link symbols steps valueSymbol initialContexts = .ok g) (id : SymbolId) :
    g.symbol? id = (symbols[id]?).map fun d =>
      { definition := d, textIndex? := steps.findIdx? (·.givesText id)
        ruleIndex? := steps.findIdx? (·.opens id) } := by
  rw [link_eq_ok ok]
  simp only [symbol?, List.getElem?_mapIdx, recorded_start]

theorem crossLinked_of_link {initialContexts : UInt32} {g : Grammar}
    (ok : link symbols steps valueSymbol initialContexts = .ok g) : CrossLinked symbols g := by
  have consistent := (exists_link_iff initialContexts).mp ⟨g, ok⟩
  have entries := symbol?_of_link ok
  have same : g.steps = steps := by rw [link_eq_ok ok]
  have texts {id : SymbolId} {n : Nat} (least : IsLeast (textSteps steps id) n) :
      ∃ step term, steps[n]? = some step ∧ step.term? = some term ∧ term.symbol = id ∧
        term.text?.isSome = true := by
    obtain ⟨⟨step, found, gives⟩, -⟩ := least
    unfold Step.givesText at gives
    split at gives
    next term has => exact ⟨step, term, found, has, by simpa using gives⟩
    · cases gives
  constructor
  · apply List.ext_getElem?
    intro id
    rw [List.getElem?_map, ← symbol?, entries]
    cases symbols[id]? <;> rfl
  · intro id entry known n
    rw [entries] at known
    obtain ⟨d, -, rfl⟩ := Option.map_eq_some_iff.mp known
    rw [step?, same]
    exact findIdx?_opens_eq_some_iff consistent.unique id n
  · intro id entry known n
    rw [entries] at known
    obtain ⟨d, -, rfl⟩ := Option.map_eq_some_iff.mp known
    rw [same]
    exact findIdx?_givesText_eq_some_iff id n
  · intro id n least
    rw [same] at least
    obtain ⟨step, term, found, has, rfl, hasText⟩ := texts least
    have there : g.step? n = some step := by rw [step?, same, found]
    refine ⟨term, by rw [there, Option.bind_some, has], rfl, hasText, ?_⟩
    -- a symbol that is given a text is in the table
    have inside := consistent.known step (List.mem_of_getElem? found) _
      (Step.symbol?_of_term? has)
    rw [defaultText?, entries, List.getElem?_eq_getElem inside,
      (findIdx?_givesText_eq_some_iff term.symbol n).mpr least]
    simp [there, has]
  · intro id silent
    have none : steps.findIdx? (·.givesText id) = none := by
      cases found : steps.findIdx? (·.givesText id) with
      | none => rfl
      | some n =>
        have member := ((findIdx?_givesText_eq_some_iff id n).mp found).1
        rw [← same, silent] at member
        exact member.elim
    rw [defaultText?, entries, none]
    cases symbols[id]? <;> rfl

end

/-- Linking accepts exactly the consistent tables. A grammar that it gives has the steps of
the table, and its entries point to the rule of their symbol and to its first text. -/
theorem link_accepts_consistent (symbols : List SymbolDef) (steps : List Step)
    (valueSymbol : SymbolId) (initialContexts : UInt32) :
    ((∃ g, link symbols steps valueSymbol initialContexts = .ok g) ↔
        Consistent symbols steps valueSymbol) ∧
      ∀ g, link symbols steps valueSymbol initialContexts = .ok g →
        g.steps = steps ∧ g.valueSymbol = valueSymbol ∧ g.initialContexts = initialContexts ∧
          CrossLinked symbols g := by
  refine ⟨exists_link_iff initialContexts, fun g ok => ?_⟩
  have linked := crossLinked_of_link ok
  rw [link_eq_ok ok] at linked ⊢
  exact ⟨rfl, rfl, rfl, linked⟩

/-- The grammar of the shader dialects is linked from a consistent table. -/
theorem link_accepts_dialect :
    Consistent Dialect.symbols Dialect.rules Symbol.value.id ∧
      CrossLinked Dialect.symbols Dialect.linked :=
  have accepts := link_accepts_consistent Dialect.symbols Dialect.rules Symbol.value.id Context.base
  ⟨accepts.1.mp ⟨_, Dialect.grammar_eq_linked⟩,
    (accepts.2 _ Dialect.grammar_eq_linked).2.2.2⟩

end Grammar
end PixelAsm
