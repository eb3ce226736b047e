import PixelAsm.Dialect.Rules

/-!
# What linking records

Linking keeps the definitions of the symbols and records for each of them the first
step that gives it a text and the step that opens its rule. With that the grammar of
the shader dialects has a closed form, in which a symbol can be looked up without
going through the whole table.
-/
namespace PixelAsm

namespace Step

/-- The step opens the rule of a symbol. -/
def opens (id : SymbolId) : Step → Bool
  | .rule symbol => symbol == id
  | _ => false

/-- The step gives a symbol a text. -/
def givesText (id : SymbolId) (step : Step) : Bool :=
  match step.term? with
  | some term => term.symbol == id && term.text?.isSome
  | none => false

end Step

namespace Grammar

/-- The entry of a symbol behind some steps, the first of which has the given index. -/
def recorded (steps : List Step) (index : Nat) (id : SymbolId) (entry : SymbolEntry) :
    SymbolEntry :=
  { definition := entry.definition
    textIndex? := entry.textIndex?.or ((steps.findIdx? (·.givesText id)).map (· + index))
    ruleIndex? := entry.ruleIndex?.or ((steps.findIdx? (·.opens id)).map (· + index)) }

private theorem recorded_cons_neutral {step : Step} {id : SymbolId}
    (noText : step.givesText id = false) (noRule : step.opens id = false) (rest : List Step)
    (index : Nat) :
    recorded (step :: rest) index id = recorded rest (index + 1) id := by
  funext entry
  simp only [recorded, List.findIdx?_cons, noText, noRule, Bool.false_eq_true, if_false,
    Option.map_map]
  congr 3 <;> funext n <;> simp only [Function.comp_apply] <;> omega

private theorem recorded_cons_opens {step : Step} {id : SymbolId}
    (noText : step.givesText id = false) (opens : step.opens id = true) (rest : List Step)
    (index : Nat) (entry : SymbolEntry) (unopened : entry.ruleIndex? = none) :
    recorded (step :: rest) index id entry =
      recorded rest (index + 1) id { entry with ruleIndex? := some index } := by
  simp only [recorded, List.findIdx?_cons, noText, opens, unopened, Bool.false_eq_true, if_false,
    if_true, Option.map_map, Option.map_some, Option.none_or, Option.some_or, Nat.zero_add]
  congr 3
  funext n
  simp only [Function.comp_apply]
  omega

private theorem recorded_cons_text {step : Step} {id : SymbolId}
    (noRule : step.opens id = false) (text : step.givesText id = true) (rest : List Step)
    (index : Nat) (entry : SymbolEntry) :
    recorded (step :: rest) index id entry =
      recorded rest (index + 1) id
        { entry with textIndex? := entry.textIndex?.or (some index) } := by
  simp only [recorded, List.findIdx?_cons, noRule, text, Bool.false_eq_true, if_false, if_true,
    Option.map_map, Option.map_some, Option.or_assoc, Option.some_or, Nat.zero_add]
  congr 3
  funext n
  simp only [Function.comp_apply]
  omega

/-- One step changes the entry of at most one symbol. -/
private theorem getElem?_modify_entry (entries : List SymbolEntry) (changed id : SymbolId)
    (change : SymbolEntry → SymbolEntry) :
    (entries.modify changed change)[id]? =
      if changed = id then (entries[id]?).map change else entries[id]? := by
  rw [List.getElem?_modify]
  split <;> simp

private theorem linkRule_entries {index : Nat} {symbol : SymbolId} {l next : Linking}
    (ok : linkRule index symbol l = .ok next) (rest : List Step) (id : SymbolId) :
    (next.entries[id]?).map (recorded rest (index + 1) id) =
      (l.entries[id]?).map (recorded (.rule symbol :: rest) index id) := by
  unfold linkRule at ok
  split at ok
  · cases ok
  next found known =>
    split at ok
    · cases ok
    · cases ok
    next unopened =>
      cases ok
      simp only [getElem?_modify_entry]
      split
      -- the step is the first that opens the rule: a second one would have been refused
      next same =>
        subst id
        rw [known, Option.map_some, Option.map_some, Option.map_some,
          recorded_cons_opens rfl (by simp [Step.opens]) rest index found unopened]
      next other =>
        have silent : (Step.rule symbol).opens id = false := by simpa [Step.opens] using other
        rw [recorded_cons_neutral rfl silent]

private theorem linkTerm_entries {index : Nat} {step : Step} {term : Term} {l next : Linking}
    (has : step.term? = some term) (noRule : ∀ id, step.opens id = false)
    (ok : linkTerm index term l = .ok next) (rest : List Step) (id : SymbolId) :
    (next.entries[id]?).map (recorded rest (index + 1) id) =
      (l.entries[id]?).map (recorded (step :: rest) index id) := by
  unfold linkTerm at ok
  split at ok
  · cases ok
  next found known =>
    split at ok
    next text hasText noIndex =>
      cases ok
      simp only [getElem?_modify_entry]
      split
      next same =>
        subst id
        have gives : step.givesText term.symbol = true := by
          simp [Step.givesText, has, hasText]
        rw [known, Option.map_some, Option.map_some, Option.map_some,
          recorded_cons_text (noRule _) gives, noIndex, Option.none_or]
      next other =>
        have silent : step.givesText id = false := by
          simp [Step.givesText, has, other]
        rw [recorded_cons_neutral silent (noRule id)]
    next unchanged =>
      cases ok
      cases gives : step.givesText id with
      | false => rw [recorded_cons_neutral gives (noRule id)]
      | true =>
        -- the symbol has a text already, so the step adds nothing
        have same : term.symbol = id ∧ term.text?.isSome = true := by
          simpa [Step.givesText, has] using gives
        obtain ⟨rfl, hasText⟩ := same
        obtain ⟨text, hasText⟩ := Option.isSome_iff_exists.mp hasText
        cases index? : found.textIndex? with
        | none => exact absurd index? (unchanged text hasText)
        | some earlier =>
          rw [known, Option.map_some, Option.map_some, recorded_cons_text (noRule _) gives,
            index?, Option.some_or, ← index?]

theorem linkSteps_entries {index : Nat} {steps : List Step} {l linked : Linking}
    (ok : linkSteps index steps l = .ok linked) (id : SymbolId) :
    linked.entries[id]? = (l.entries[id]?).map (recorded steps index id) := by
  induction steps generalizing index l with
  | nil =>
    cases ok
    have idle : recorded [] index id = fun entry => entry := by
      funext entry
      simp [recorded]
    rw [idle, Option.map_id']
  | cons step rest ih =>
    unfold linkSteps at ok
    dsimp only at ok
    split at ok
    · cases ok
    next next linkedStep =>
      rw [ih ok]
      cases step with
      | rule symbol => exact linkRule_entries linkedStep rest id
      | done =>
        cases linkedStep
        have silent : Step.done.givesText id = false := rfl
        rw [recorded_cons_neutral silent rfl]
      | require term | orElse term | maybe term | many term =>
        exact linkTerm_entries rfl (fun _ => rfl) linkedStep rest id

/-- Linking is four checks around the walk over the steps. -/
theorem link_eq_ok_iff {symbols : List SymbolDef} {steps : List Step} {valueSymbol : SymbolId}
    {initialContexts : UInt32} {g : Grammar} :
    link symbols steps valueSymbol initialContexts = .ok g ↔
      checkOrder 0 symbols = .ok () ∧ checkRoot steps = .ok () ∧
        ∃ linked, linkSteps 0 steps { entries := symbols.map ({ definition := · }) } = .ok linked ∧
          checkClosed linked = .ok () ∧ checkTexts linked.entries valueSymbol 0 steps = .ok () ∧
          g = { symbols := linked.entries, steps, valueSymbol, initialContexts } := by
  unfold link
  cases checkOrder 0 symbols with
  | error fault => simp [bind, Except.bind]
  | ok =>
    cases checkRoot steps with
    | error fault => simp [bind, Except.bind]
    | ok =>
      cases linkSteps 0 steps { entries := symbols.map ({ definition := · }) } with
      | error fault => simp [bind, Except.bind]
      | ok linked =>
        cases closed : checkClosed linked with
        | error fault => simp [bind, Except.bind, closed]
        | ok =>
          cases texts : checkTexts linked.entries valueSymbol 0 steps with
          | error fault => simp [bind, Except.bind, closed, texts]
          | ok => simp [bind, Except.bind, pure, Except.pure, closed, texts, eq_comm]

theorem linkSteps_start_entries {symbols : List SymbolDef} {steps : List Step} {linked : Linking}
    (ok : linkSteps 0 steps { entries := symbols.map ({ definition := · }) } = .ok linked) :
    linked.entries = symbols.mapIdx fun id d => recorded steps 0 id { definition := d } := by
  apply List.ext_getElem?
  intro id
  rw [linkSteps_entries ok, List.getElem?_mapIdx, List.getElem?_map, Option.map_map]
  rfl

/-- A linked grammar has an entry for each symbol definition and the given steps. -/
theorem link_eq_ok {symbols : List SymbolDef} {steps : List Step} {valueSymbol : SymbolId}
    {initialContexts : UInt32} {g : Grammar}
    (ok : link symbols steps valueSymbol initialContexts = .ok g) :
    g = { symbols := symbols.mapIdx fun id d => recorded steps 0 id { definition := d }
          steps, valueSymbol, initialContexts } := by
  obtain ⟨-, -, linked, walked, -, -, rfl⟩ := link_eq_ok_iff.mp ok
  rw [linkSteps_start_entries walked]

end Grammar

namespace Symbol

@[simp]
theorem ofId?_id (s : Symbol) : ofId? s.id = some s := by
  cases s <;> rfl

theorem id_inj {s t : Symbol} (same : s.id = t.id) : s = t := by
  have both := ofId?_id s
  rw [same, ofId?_id] at both
  exact (Option.some.inj both).symm

end Symbol

namespace Dialect

/-- The entry of a symbol in the grammar of the shader dialects. -/
def entry (s : Symbol) : SymbolEntry := Grammar.recorded rules 0 s.id { definition := s.definition }

/-- The grammar of the shader dialects. -/
def linked : Grammar :=
  { symbols := Symbol.all.map entry, steps := rules, valueSymbol := Symbol.value.id
    initialContexts := Context.base }

private theorem grammar_isOk : grammar.isOk = true := by decide +kernel

private theorem map_id_all : Symbol.all.map Symbol.id = List.range Symbol.all.length := by
  decide +kernel

theorem eq_id_of_getElem?_all {id : SymbolId} {s : Symbol}
    (position : Symbol.all[id]? = some s) : s.id = id := by
  -- symbols are listed in the order of their ids
  have both := congrArg (·[id]?) map_id_all
  simp only [List.getElem?_map, position, Option.map_some] at both
  obtain ⟨inside, -⟩ := List.getElem?_eq_some_iff.mp position
  rw [List.getElem?_range inside] at both
  exact Option.some.inj both

private theorem entries_eq :
    (symbols.mapIdx fun id d => Grammar.recorded rules 0 id { definition := d }) =
      Symbol.all.map entry := by
  apply List.ext_getElem?
  intro id
  rw [List.getElem?_mapIdx, List.getElem?_map, symbols, List.getElem?_map, Option.map_map]
  cases position : Symbol.all[id]? with
  | none => rfl
  | some s =>
    rw [Option.map_some, Option.map_some, ← eq_id_of_getElem?_all position]
    rfl

theorem grammar_eq_linked : grammar = .ok linked := by
  cases found : grammar with
  | error fault =>
    have ok := grammar_isOk
    rw [found] at ok
    cases ok
  | ok g => rw [Grammar.link_eq_ok found, entries_eq, linked]

theorem symbol?_id (s : Symbol) : linked.symbol? s.id = some (entry s) := by
  have position : Symbol.all[s.id]? = some s := s.ofId?_id
  simp [Grammar.symbol?, linked, position]

theorem symbol_of_found {id : SymbolId} {found : SymbolEntry}
    (known : linked.symbol? id = some found) : ∃ s : Symbol, s.id = id ∧ found = entry s := by
  have position : (Symbol.all.map entry)[id]? = some found := known
  rw [List.getElem?_map] at position
  obtain ⟨s, position, same⟩ := Option.map_eq_some_iff.mp position
  exact ⟨s, eq_id_of_getElem?_all position, same.symm⟩

@[simp]
theorem code_id (s : Symbol) : linked.code s.id = s.code := by
  rw [Grammar.code, symbol?_id]
  rfl

end Dialect
end PixelAsm
