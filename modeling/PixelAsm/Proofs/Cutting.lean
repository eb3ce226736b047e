import PixelAsm.Proofs.Lexing
import PixelAsm.Proofs.MaximalMunch
import PixelAsm.Proofs.Simulation

/-!
# Reading a text that is cut off

We compare the evaluation of a goal on a text with the one on the beginning of the text. A
terminal that is accepted in front of the cut is accepted alike in the shorter text, and one that
is refused is refused there too: with less text there are fewer literals, and the longest numeral
is still the longest. Goals are composed of terminals, and what is said of terminals goes over to
sequences and choices between them. It does not go over to goals in general. An alternative that
fails behind the cut may hold on to the shorter text, and a repetition may end in front of it.
-/
namespace PixelAsm

open Reader

/-! ### Trivia -/

theorem startsComment_of_prefix {less text : List UInt8} (shorter : less <+: text)
    (starts : startsComment less = true) : startsComment text = true := by
  obtain ⟨more, rfl⟩ := shorter
  unfold startsComment at starts
  split at starts
  · rfl
  next b rest other =>
    cases rest with
    | nil =>
      rcases Bool.or_eq_true _ _ |>.mp starts with semicolon | hash
      · rw [eq_of_beq semicolon]
        rfl
      · rw [eq_of_beq hash]
        rfl
    | cons c rest =>
      show startsComment (b :: c :: (rest ++ more)) = true
      rw [startsComment]
      · exact starts
      · intro _ slash slashes
        obtain ⟨rfl, -⟩ := List.cons.inj slashes
        exact other rest slash rfl
  · cases starts

/-- Where no trivia stand, none stand in a shorter text. -/
theorem Settled.of_prefix {less text : List UInt8} (settled : Settled text)
    (shorter : less <+: text) : Settled less := by
  cases less with
  | nil => trivial
  | cons b rest =>
    obtain ⟨more, rfl⟩ := shorter
    refine ⟨settled.1, Bool.eq_false_iff.mpr fun starts => ?_⟩
    have longer : startsComment (b :: (rest ++ more)) = true :=
      startsComment_of_prefix (List.prefix_append (b :: rest) more) starts
    exact Bool.false_ne_true (settled.2.symm.trans longer)

/-- The part of a comment in front of its newline starts the comment. -/
theorem startsComment_takeWhile {bytes : List UInt8} (starts : startsComment bytes = true)
    (more : List UInt8) :
    startsComment (bytes.takeWhile (!isNewline ·) ++ more) = true := by
  unfold startsComment at starts
  split at starts
  · rfl
  next b rest _ =>
    rcases Bool.or_eq_true _ _ |>.mp starts with semicolon | hash
    · rw [eq_of_beq semicolon]
      rfl
    · rw [eq_of_beq hash]
      rfl
  · cases starts

/-- A comment ends where it did if less follows the trivia: at a newline that is passed, or at the
end of the text. -/
theorem dropWhile_comment {bytes passed after less : List UInt8}
    (joined : passed ++ after = bytes.dropWhile (!isNewline ·)) (settled : Settled after)
    (shorter : less <+: after) : (passed ++ less).dropWhile (!isNewline ·) = passed ++ less := by
  have stopped := List.head?_dropWhile_not (!isNewline ·) bytes
  rw [← joined] at stopped
  cases passed with
  | nil =>
    cases after with
    | nil =>
      rw [List.prefix_nil.mp shorter]
      rfl
    | cons b text =>
      have newline : isNewline b = true := by simpa using stopped
      have printable := settled.1
      rw [Skips.blank_of_newline newline] at printable
      cases printable
  | cons b passed =>
    have newline : isNewline b = true := by simpa using stopped
    simp [newline]

/-- Trivia are passed alike if less follows them. -/
theorem Skips.shorten {bytes after : List UInt8} (skips : Skips bytes after)
    (settled : Settled after) {passed : List UInt8} (split : bytes = passed ++ after)
    {less : List UInt8} (shorter : less <+: after) : Skips (passed ++ less) less := by
  induction skips generalizing passed with
  | here bytes =>
    obtain rfl : passed = [] := List.self_eq_append_left.mp split
    exact .here less
  | @blank b rest after blank behind ih =>
    cases passed with
    | nil =>
      rw [List.nil_append] at split
      subst split
      rw [settled.1] at blank
      cases blank
    | cons c passed =>
      obtain ⟨rfl, behind⟩ := List.cons.inj split
      exact .blank blank (ih settled behind shorter)
  | @comment bytes after starts behind ih =>
    obtain ⟨rest, joined⟩ := behind.suffix
    have whole : bytes.takeWhile (!isNewline ·) ++ rest ++ after = passed ++ after := by
      rw [← split, List.append_assoc, joined, List.takeWhile_append_dropWhile]
    obtain rfl := List.append_cancel_right whole
    have inside : ∀ b ∈ bytes.takeWhile (!isNewline ·), (!isNewline b) = true :=
      fun b member => List.all_eq_true.mp List.all_takeWhile b member
    rw [List.append_assoc]
    apply Skips.comment (startsComment_takeWhile starts _)
    rw [List.dropWhile_append_of_pos inside, dropWhile_comment joined settled shorter]
    exact ih settled joined.symm shorter

namespace Reader

/-! ### A reader of the beginning of a source -/

/-- The same position in the first bytes of the source. -/
def cut (r : Reader) (stop : Nat) : Reader :=
  { r with
    rest := r.rest.take (stop - r.offset)
    size := min stop r.size
    length_rest := by rw [List.length_take, r.length_rest]; omega }

variable {r : Reader} {stop : Nat}

theorem cut_start (source : List UInt8) : (start source).cut stop = start (source.take stop) := by
  apply eq_of_fields
  · simp [cut, start, seek]
  · rfl
  · rfl
  · simp [cut, start, seek]

theorem isPrefix_cut (r : Reader) (stop : Nat) : (r.cut stop).rest <+: r.rest :=
  List.take_prefix _ _

/-- Nothing is left at the cut. -/
theorem rest_cut_self (r : Reader) : (r.cut r.offset).rest = [] := by
  simp [cut]

theorem skipTrivia_cut (within : r.skipTrivia.2.offset ≤ stop) :
    (r.cut stop).skipTrivia =
      (!(r.skipTrivia.2.cut stop).rest.isEmpty, r.skipTrivia.2.cut stop) := by
  obtain ⟨skips, settled, -⟩ := r.skipTrivia_skips
  obtain ⟨bytes, passes⟩ := r.exists_passes_skipTrivia
  have offset := passes.offset
  have shorter := r.skipTrivia.2.isPrefix_cut stop
  -- the bytes that are passed are all in front of the cut
  have position : (r.cut stop).rest = bytes ++ (r.skipTrivia.2.cut stop).rest := by
    show r.rest.take _ = _ ++ r.skipTrivia.2.rest.take _
    have enough : stop - r.offset = bytes.length + (stop - r.skipTrivia.2.offset) := by omega
    rw [passes.rest, enough, List.take_length_add_append]
  have skips' : Skips (r.cut stop).rest (r.skipTrivia.2.cut stop).rest := by
    rw [position]
    exact skips.shorten settled passes.rest shorter
  have settled' := settled.of_prefix shorter
  obtain ⟨own, ownSettled, found⟩ := (r.cut stop).skipTrivia_skips
  obtain ⟨others, ownPasses⟩ := (r.cut stop).exists_passes_skipTrivia
  have same := own.unique skips' ownSettled settled'
  have passed := ownPasses.rest
  rw [same, position] at passed
  obtain rfl := List.append_cancel_right passed
  have arrived : (r.cut stop).skipTrivia.2 = r.skipTrivia.2.cut stop := by
    apply eq_of_fields same
    · rw [ownPasses.offset]
      exact offset.symm
    · rw [ownPasses.line]
      exact passes.line.symm
    · rw [ownPasses.size]
      show min stop r.size = min stop r.skipTrivia.2.size
      rw [passes.size]
  apply Prod.ext
  · rw [Bool.eq_iff_iff, found, same]
    simp
  · exact arrived

/-! ### Terminals -/

theorem isAtLiteral_of_cut {text : String} (stands : (r.cut stop).isAtLiteral text = true) :
    r.isAtLiteral text = true := by
  simp only [isAtLiteral, Bool.and_eq_true, List.isPrefixOf_iff_prefix] at stands ⊢
  exact ⟨stands.1, stands.2.trans (r.isPrefix_cut stop)⟩

theorem isAtLiteral_cut {text : String} (stands : r.isAtLiteral text = true)
    (within : r.offset + text.utf8ByteSize ≤ stop) : (r.cut stop).isAtLiteral text = true := by
  have length : (utf8 text).length = text.utf8ByteSize := by simp [utf8]
  simp only [isAtLiteral, Bool.and_eq_true, List.isPrefixOf_iff_prefix] at stands ⊢
  exact ⟨stands.1, List.prefix_take_iff.mpr ⟨stands.2, by omega⟩⟩

/-- Without a numeral there is none in less text. -/
theorem number?_cut_of_none (settled : Settled r.rest) (missing : r.number? = none) :
    (r.cut stop).number? = none := by
  have shorter := r.isPrefix_cut stop
  rw [Literal.number?_of_settled settled, Option.map_eq_none_iff,
    Numeral.scan?_eq_none_iff] at missing
  rw [Literal.number?_of_settled (settled.of_prefix shorter), Option.map_eq_none_iff,
    Numeral.scan?_eq_none_iff]
  intro word numeral stands
  exact missing word numeral (stands.trans shorter)

/-- The longest numeral is the longest in a text that it is not cut off from. -/
theorem number?_cut (settled : Settled r.rest) {value : Binary32} {length : Nat}
    (found : r.number? = some (value, length)) (within : r.offset + length ≤ stop) :
    (r.cut stop).number? = some (value, length) := by
  have shorter := r.isPrefix_cut stop
  rw [Literal.number?_of_settled settled] at found
  obtain ⟨⟨n, width⟩, scanned, same⟩ := Option.map_eq_some_iff.mp found
  cases same
  obtain ⟨word, longest, length, denoted⟩ := Numeral.longest_of_scan? scanned
  have stands : word <+: (r.cut stop).rest :=
    List.prefix_take_iff.mpr ⟨longest.stands, by omega⟩
  have still : Numeral.Longest (r.cut stop).rest word :=
    ⟨longest.numeral, stands, fun other numeral front =>
      longest.longest other numeral (front.trans shorter)⟩
  rw [Literal.number?_of_settled (settled.of_prefix shorter)]
  cases again : Numeral.scan? (r.cut stop).rest with
  | none => exact absurd stands (Numeral.scan?_eq_none_iff.mp again word longest.numeral)
  | some result =>
    obtain ⟨m, width'⟩ := result
    obtain ⟨other, found, length', denoted'⟩ := Numeral.longest_of_scan? again
    obtain rfl := found.unique still
    rw [denoted] at denoted'
    simp [← length, ← length', denoted']

theorem advance_cut {count : Nat} (inside : r.offset + count ≤ r.size)
    (within : r.offset + count ≤ stop) :
    (r.cut stop).advance count = (r.advance count).cut stop := by
  apply eq_of_fields
  · show (r.rest.take _).drop count = (r.rest.drop count).take _
    rw [List.drop_take]
    congr 1
    simp only [advance]
    omega
  · simp only [cut, advance]
    omega
  · rfl
  · rfl

end Reader

/-! ### What has been accepted -/

namespace Progress

def cut (p : Progress) (stop : Nat) : Progress := { p with reader := p.reader.cut stop }

/-- Where the next symbol starts, if there is one. -/
def ahead (p : Progress) : Nat := p.reader.skipTrivia.2.offset

variable {p : Progress} {stop : Nat}

theorem offset_le_ahead (p : Progress) : p.reader.offset ≤ p.ahead := by
  obtain ⟨bytes, passes⟩ := p.reader.exists_passes_skipTrivia
  rw [ahead, passes.offset]
  exact Nat.le_add_right _ _

theorem accept_cut (p : Progress) {length : Nat} (inside : p.reader.offset + length ≤ p.reader.size)
    (within : p.reader.offset + length ≤ stop) (definition : SymbolDef) (id rule : SymbolId) :
    (p.cut stop).accept definition id rule length =
      (p.accept definition id rule length).cut stop := by
  simp only [cut, accept, advance_cut inside within, place]
  rfl

end Progress

namespace Grammar

variable {g : Grammar} {stop : Nat} {p q : Progress} {verdict : Bool}

/-- Nothing is left, or the terminal that the term names does not stand here. -/
def Denies (g : Grammar) (term : Term) (r : Reader) : Prop :=
  r.rest = [] ∨
    if term.symbol = g.valueSymbol then r.number? = none
    else ∀ text, term.text?.or (g.defaultText? term.symbol) = some text →
      r.isAtLiteral text = false

section

variable {term : Term} {definition : SymbolDef} {owner : SymbolId}

theorem Denies.cut {r : Reader} (denies : g.Denies term r) (settled : Settled r.rest) :
    g.Denies term (r.cut stop) := by
  rcases denies with none | absent
  · left
    simp [Reader.cut, none]
  · right
    by_cases isValue : term.symbol = g.valueSymbol
    · rw [if_pos isValue] at absent ⊢
      exact number?_cut_of_none settled absent
    · rw [if_neg isValue] at absent ⊢
      intro text spelled
      rw [Bool.eq_false_iff]
      intro stands
      have refused := absent text spelled
      rw [isAtLiteral_of_cut stands] at refused
      cases refused

theorem matchTerminal_of_denies (denies : g.Denies term p.reader.skipTrivia.2) :
    g.matchTerminal term definition owner p =
      (false, { p with reader := p.reader.skipTrivia.2 }) := by
  obtain ⟨-, -, found⟩ := p.reader.skipTrivia_skips
  unfold matchTerminal
  dsimp only
  split
  · rfl
  next more =>
    have absent := denies.resolve_left (found.mp (by simpa using more))
    split at absent
    next isValue => rw [if_pos isValue, absent]
    next other =>
      rw [if_neg other]
      cases spelled : term.text?.or (g.defaultText? term.symbol) with
      | none => rfl
      | some text =>
        dsimp only
        rw [absent text spelled]
        rfl

theorem denies_of_matchTerminal (refused : (g.matchTerminal term definition owner p).1 = false) :
    g.Denies term p.reader.skipTrivia.2 := by
  obtain ⟨-, -, found⟩ := p.reader.skipTrivia_skips
  by_cases none : p.reader.skipTrivia.2.rest = []
  · exact .inl none
  · right
    unfold matchTerminal at refused
    dsimp only at refused
    simp only [found.mpr none, Bool.not_true, Bool.false_eq_true, if_false] at refused
    by_cases isValue : term.symbol = g.valueSymbol
    · rw [if_pos isValue] at refused ⊢
      cases number : p.reader.skipTrivia.2.number? with
      | none => rfl
      | some result => simp [number] at refused
    · rw [if_neg isValue] at refused ⊢
      intro text spelled
      rw [Bool.eq_false_iff]
      intro stands
      simp [spelled, stands] at refused

/-- Something is left in front of the cut if it is accepted there. -/
theorem skipTrivia_cut_of_accepted {length : Nat} (positive : 0 < length)
    (enough : length ≤ p.reader.skipTrivia.2.rest.length)
    (within : (p.reader.skipTrivia.2.advance length).offset ≤ stop) :
    p.reader.skipTrivia.2.offset + length ≤ p.reader.skipTrivia.2.size ∧
      p.reader.skipTrivia.2.offset + length ≤ stop ∧
      (p.cut stop).reader.skipTrivia = (true, p.reader.skipTrivia.2.cut stop) := by
  have left := p.reader.skipTrivia.2.length_rest
  have inside : p.reader.skipTrivia.2.offset + length ≤ p.reader.skipTrivia.2.size := by omega
  have front : p.reader.skipTrivia.2.offset + length ≤ stop := by
    simpa [advance, Nat.min_eq_left inside] using within
  have here : p.reader.skipTrivia.2.offset ≤ stop := by omega
  have some : (p.reader.skipTrivia.2.cut stop).rest.isEmpty = false := by
    rw [List.isEmpty_eq_false_iff, ← List.length_pos_iff]
    simp only [Reader.cut, List.length_take]
    omega
  refine ⟨inside, front, ?_⟩
  show (p.reader.cut stop).skipTrivia = _
  rw [skipTrivia_cut here, some]
  rfl

/-- A terminal that is refused is refused in less text, and one that is accepted is accepted if
all of it is left. -/
theorem matchTerminal_cut (read : g.matchTerminal term definition owner p = (verdict, q))
    (here : p.ahead ≤ stop) (there : verdict = true → q.reader.offset ≤ stop) :
    g.matchTerminal term definition owner (p.cut stop) = (verdict, q.cut stop) := by
  obtain ⟨-, settled, -⟩ := p.reader.skipTrivia_skips
  have refused : verdict = false → g.Denies term p.reader.skipTrivia.2 := by
    rintro rfl
    exact denies_of_matchTerminal (congrArg Prod.fst read)
  have tries := g.tries_matchTerminal term definition owner p
  rw [read] at tries
  cases tries with
  | refused =>
    have skipped : (p.cut stop).reader.skipTrivia.2 = p.reader.skipTrivia.2.cut stop :=
      congrArg Prod.snd (skipTrivia_cut here)
    have denies : g.Denies term (p.cut stop).reader.skipTrivia.2 := by
      rw [skipped]
      exact (refused rfl).cut settled
    rw [matchTerminal_of_denies denies, skipped]
    rfl
  | @numeral value length _ isValue number =>
    obtain ⟨enough, -⟩ := clean_of_number? settled number
    obtain ⟨inside, within, found⟩ :=
      skipTrivia_cut_of_accepted (number?_length_pos number) enough (there rfl)
    unfold matchTerminal
    rw [found]
    simp only [Bool.not_true, Bool.false_eq_true, if_false, if_pos isValue,
      number?_cut settled number within]
    exact congrArg (Prod.mk true) (Progress.accept_cut
      { p with reader := p.reader.skipTrivia.2, constants := p.constants.push value } inside
        within ..)
  | @literal text _ other spelled stands =>
    obtain ⟨enough, -⟩ := take_of_isAtLiteral stands
    obtain ⟨inside, within, found⟩ :=
      skipTrivia_cut_of_accepted (length_pos_of_isAtLiteral stands) enough (there rfl)
    unfold matchTerminal
    rw [found]
    simp only [Bool.not_true, Bool.false_eq_true, if_false, if_neg other, spelled,
      isAtLiteral_cut stands within, if_true]
    exact congrArg (Prod.mk true) (Progress.accept_cut
      { p with reader := p.reader.skipTrivia.2 } inside within ..)

end

/-! ### Moving on -/

theorem ahead_le_matchTerminal (term : Term) (definition : SymbolDef) (owner : SymbolId)
    (p : Progress) : p.ahead ≤ (g.matchTerminal term definition owner p).2.ahead := by
  obtain ⟨-, -, found⟩ := p.reader.skipTrivia_skips
  have left := p.reader.skipTrivia.2.length_rest
  -- where something is found there are bytes left, so advancing does not lead back
  have further (more : p.reader.skipTrivia.1 = true) {r : Progress}
      (there : r.reader = p.reader.skipTrivia.2) (length : Nat) :
      p.ahead ≤ (r.accept definition term.symbol owner length).ahead := by
    have some := List.length_pos_iff.mpr (found.mp more)
    refine Nat.le_trans ?_ (Progress.offset_le_ahead _)
    simp only [Progress.ahead, Progress.accept, advance, there]
    omega
  have tries := g.tries_matchTerminal term definition owner p
  generalize g.matchTerminal term definition owner p = outcome at tries
  cases tries with
  | refused =>
    simp only [Progress.ahead, skipTrivia_skipTrivia]
    exact Nat.le_refl _
  | numeral more => exact further more rfl _
  | literal more => exact further more rfl _

theorem Evaluates.ahead_le {goal : Goal} (evaluates : Evaluates g goal p verdict q) :
    p.ahead ≤ q.ahead := by
  apply @Evaluates.preserves g (fun r => p.ahead ≤ r.ahead) _ _ _ _ _ evaluates (Nat.le_refl _)
  intro term entry owner r _ _ _ below
  exact below.trans (ahead_le_matchTerminal term entry.definition owner r)

/-! ### Goals -/

/-- If the goal is accepted in front of the cut, it is accepted in the shorter text alike. -/
def Stays (g : Grammar) (stop : Nat) (goal : Goal) : Prop :=
  ∀ p q, Evaluates g goal p true q → q.ahead ≤ stop →
    Evaluates g goal (p.cut stop) true (q.cut stop)

/-- So it is, and if it is refused it is refused in the shorter text. -/
def Steady (g : Grammar) (stop : Nat) (goal : Goal) : Prop :=
  ∀ p verdict q, Evaluates g goal p verdict q → p.ahead ≤ stop → (verdict = true → q.ahead ≤ stop) →
    Evaluates g goal (p.cut stop) verdict (q.cut stop)

section

variable {owner : SymbolId} {term : Term} {pieces : List Piece} {alternatives : List (List Piece)}

theorem Steady.stays {goal : Goal} (steady : g.Steady stop goal) : g.Stays stop goal := by
  intro p q evaluates within
  exact steady p true q evaluates (evaluates.ahead_le.trans within) fun _ => within

theorem steady_terminal
    (terminal : ∀ entry, g.symbol? term.symbol = some entry → entry.ruleIndex? = none) :
    g.Steady stop (.term owner term) := by
  intro p verdict q evaluates here there
  cases evaluates with
  | unknown missing => exact .unknown missing
  | inactive known off => exact .inactive known off
  | nested known _ starts _ =>
    rw [terminal _ known] at starts
    cases starts
  | terminal known active noRule read =>
    refine .terminal known active noRule (matchTerminal_cut read here fun accepted => ?_)
    exact q.offset_le_ahead.trans (there accepted)

/-- A choice between single terms. -/
theorem Steady.first {terms : List Term} (each : ∀ term ∈ terms, g.Steady stop (.term owner term)) :
    g.Steady stop (.first owner (terms.map fun term => [.one term])) := by
  induction terms with
  | nil =>
    intro p verdict q evaluates _ _
    cases evaluates
    exact .exhausted
  | cons term terms ih =>
    intro p verdict q evaluates here there
    have own := each term (List.mem_cons_self ..)
    cases evaluates with
    | chosen holds =>
      obtain ⟨r, tried, rest⟩ := holds.split_one
      cases rest
      exact .chosen (.andThen (.one (own _ _ _ tried here there)) .finished)
    | passedOver fails other =>
      have others := ih (fun term member => each term (List.mem_cons_of_mem _ member)) _ _ _ other
        here there
      cases fails with
      | stopped fails =>
        cases fails with
        | one tried =>
          refine .passedOver (.stopped (.one (own _ _ _ tried here ?_))) others
          exact fun accepted => absurd accepted Bool.false_ne_true
      | andThen _ rest => cases rest

theorem Stays.one (stays : g.Stays stop (.term owner term)) :
    g.Stays stop (.piece owner (.one term)) := by
  intro p q evaluates within
  cases evaluates with
  | one tried => exact .one (stays p q tried within)

theorem Steady.optional (steady : g.Steady stop (.term owner term)) :
    g.Stays stop (.piece owner (.optional term)) := by
  intro p q evaluates within
  cases evaluates with
  | optional tried =>
    exact .optional (steady p _ q tried (tried.ahead_le.trans within) fun _ => within)

theorem Stays.sequence (each : ∀ piece ∈ pieces, g.Stays stop (.piece owner piece)) :
    g.Stays stop (.sequence owner pieces) := by
  induction pieces with
  | nil =>
    intro p q evaluates _
    cases evaluates
    exact .finished
  | cons piece pieces ih =>
    intro p q evaluates within
    cases evaluates with
    | andThen holds rest =>
      have own := each piece (List.mem_cons_self ..) _ _ holds (rest.ahead_le.trans within)
      exact .andThen own
        (ih (fun piece member => each piece (List.mem_cons_of_mem _ member)) _ _ rest within)

theorem Stays.only (stays : g.Stays stop (.sequence owner pieces)) :
    g.Stays stop (.first owner [pieces]) := by
  intro p q evaluates within
  exact .chosen (stays p q evaluates.of_only within)

/-- A repetition goes on as often, if what ends it ends it in the shorter text too. -/
theorem Evaluates.cut_rounds (stays : g.Stays stop (.term owner term))
    (still : ∀ p q, Evaluates g (.term owner term) p false q → q = p) {matched : Bool}
    (evaluates : Evaluates g (.rounds owner term matched) p verdict q) (within : q.ahead ≤ stop)
    (last : Evaluates g (.term owner term) (q.cut stop) false (q.cut stop)) :
    Evaluates g (.rounds owner term matched) (p.cut stop) verdict (q.cut stop) := by
  generalize rounds : Goal.rounds owner term matched = goal at evaluates
  induction evaluates generalizing matched with
  | lastRound fails =>
    cases rounds
    obtain rfl := still _ _ fails
    exact .lastRound last
  | idleRound holds idle =>
    cases rounds
    exact .idleRound (stays _ _ holds within) idle
  | round holds moved again _ ih =>
    cases rounds
    exact .round (stays _ _ holds (again.ahead_le.trans within)) moved (ih within last rfl)
  | _ => cases rounds

end

end Grammar
end PixelAsm
