import Isa16.Program.Parse
import Isa16.Program.Name
import Mathlib

/-!
# Steps of reading

* `Reader.Gives`: a step of reading succeeds, with a result and the place behind it.
* `Cursor.At`, `Cursor.NotAt`: what stands in front of a place. In front of a fault of the text
  stands nothing.
* `Cursor.rest`, `Cursor.deeper`, `Cursor.release`: what the steps do to a place.
* `Cursor.Ahead`, `Scan.Yields`: the lexemes that lie ahead of a place, up to the end of the text.
* `Reader.gives_bind` and one lemma for each step on a single token: when the step succeeds, and
  what follows it.
* `Stops`: what follows an operand of a level without going on with it.
-/

namespace Isa16

namespace Cursor

/-- The next lexeme, `none` at the end of the text, and its place. -/
def front? (c : Cursor) : Option (Option Lexeme × Position) :=
  match c.tokens, c.ending with
  | t :: _, _ => some (some t.lexeme, t.position)
  | [], .complete position => some (none, position)
  | [], .fault _ _ => none

/-- The next token, or the end of the text, is this one. -/
def At (c : Cursor) (l : Option Lexeme) : Prop :=
  ∃ p, c.front? = some (l, p)

/-- The next token, or the end of the text, is another one. -/
def NotAt (c : Cursor) (l : Option Lexeme) : Prop :=
  ∃ l', c.At l' ∧ l' ≠ l

/-- Past the next token. -/
def rest (c : Cursor) : Cursor :=
  { c with tokens := c.tokens.tail }

/-- With one more level held. -/
def deeper (c : Cursor) : Cursor :=
  { c with depth := c.depth + 1 }

/-- With levels given back. -/
def release (c : Cursor) (levels : Nat) : Cursor :=
  { c with depth := c.depth - levels }

@[simp, grind =] theorem rest_depth (c : Cursor) : c.rest.depth = c.depth := rfl
@[simp, grind =] theorem deeper_depth (c : Cursor) : c.deeper.depth = c.depth + 1 := rfl
@[simp, grind =]
theorem release_depth (c : Cursor) (k : Nat) : (c.release k).depth = c.depth - k := rfl
@[simp] theorem rest_tokens (c : Cursor) : c.rest.tokens = c.tokens.tail := rfl
@[simp, grind =] theorem deeper_tokens (c : Cursor) : c.deeper.tokens = c.tokens := rfl

theorem At.notAt {c : Cursor} {l l' : Option Lexeme} (h : c.At l) (hne : l ≠ l') : c.NotAt l' :=
  ⟨l, h, hne⟩

/-! ## Lexemes ahead -/

/-- The lexemes ahead of a place, behind which the text ends. -/
def Ahead (c : Cursor) (ls : List Lexeme) : Prop :=
  c.tokens.map Token.lexeme = ls ∧ ∃ p, c.ending = .complete p

variable {c : Cursor} {l : Lexeme} {ls : List Lexeme}

theorem Ahead.at (h : c.Ahead ls) : c.At ls.head? := by
  obtain ⟨rfl, p, hp⟩ := h
  unfold At front?
  rw [hp]
  cases c.tokens with
  | nil => exact ⟨p, rfl⟩
  | cons t ts => exact ⟨t.position, rfl⟩

theorem Ahead.rest (h : c.Ahead (l :: ls)) : c.rest.Ahead ls := by
  obtain ⟨htokens, hending⟩ := h
  refine ⟨?_, hending⟩
  rw [rest_tokens, List.map_tail, htokens, List.tail_cons]

theorem Ahead.deeper (h : c.Ahead ls) : c.deeper.Ahead ls :=
  h

theorem Ahead.release (h : c.Ahead ls) (k : Nat) : (c.release k).Ahead ls :=
  h

end Cursor

/-- The text is cut into these lexemes through its end. -/
def Scan.Yields (s : Scan) (ls : List Lexeme) : Prop :=
  s.cursor.Ahead ls

namespace Reader

variable {α β : Type} {c c' : Cursor}

/-- The step succeeds at `c` with `a` and goes on at `c'`. -/
def Gives (x : Reader α) (c : Cursor) (a : α) (c' : Cursor) : Prop :=
  x.run c = .ok (a, c')

theorem gives_pure {a b : α} : Gives (pure a) c b c' ↔ b = a ∧ c' = c := by
  unfold Gives
  constructor
  · intro h
    cases h
    exact ⟨rfl, rfl⟩
  · rintro ⟨rfl, rfl⟩
    rfl

/-- Two steps succeed if the first does and the second does behind it. -/
theorem gives_bind {x : Reader α} {f : α → Reader β} {b : β} :
    Gives (x >>= f) c b c' ↔ ∃ a c₁, Gives x c a c₁ ∧ Gives (f a) c₁ b c' := by
  unfold Gives
  rw [StateT.run_bind]
  constructor
  · intro h
    cases hx : x.run c with
    | error e => rw [hx] at h; cases h
    | ok r =>
      rw [hx] at h
      exact ⟨r.1, r.2, rfl, h⟩
  · rintro ⟨a, c₁, hx, hf⟩
    rw [hx]
    exact hf

theorem not_gives_throw {e : Halt} {a : α} : ¬ Gives (throw e) c a c' := by
  intro h
  cases h

theorem not_gives_fail {p : Position} {fault : ParseFault} {a : α} :
    ¬ Gives (fail p fault) c a c' :=
  not_gives_throw

/-! ## Single tokens -/

theorem run_peek : peek.run c =
    match c.tokens, c.ending with
    | t :: _, _ => .ok ((some t.lexeme, t.position), c)
    | [], .complete position => .ok ((none, position), c)
    | [], .fault position fault => .error (.fault (.lexical position fault)) := by
  obtain ⟨tokens, ending, depth⟩ := c
  cases tokens with
  | cons t ts => rfl
  | nil => cases ending <;> rfl

theorem gives_peek {r : Option Lexeme × Position} :
    Gives peek c r c' ↔ c.front? = some r ∧ c' = c := by
  rw [Gives, run_peek]
  obtain ⟨tokens, ending, depth⟩ := c
  cases tokens with
  | cons t ts =>
    simp only [Cursor.front?, Except.ok.injEq, Prod.mk.injEq, Option.some.injEq]
    exact and_congr Iff.rfl eq_comm
  | nil =>
    cases ending with
    | complete p =>
      simp only [Cursor.front?, Except.ok.injEq, Prod.mk.injEq, Option.some.injEq]
      exact and_congr Iff.rfl eq_comm
    | fault p f => simp [Cursor.front?]

/-- What follows a look at the next token. -/
theorem gives_peek_bind {f : Option Lexeme × Position → Reader β} {b : β} :
    Gives (peek >>= f) c b c' ↔ ∃ l p, c.front? = some (l, p) ∧ Gives (f (l, p)) c b c' := by
  rw [gives_bind]
  constructor
  · rintro ⟨⟨l, p⟩, c₁, hp, hf⟩
    obtain ⟨hl, rfl⟩ := gives_peek.mp hp
    exact ⟨l, p, hl, hf⟩
  · rintro ⟨l, p, hl, hf⟩
    exact ⟨(l, p), c, gives_peek.mpr ⟨hl, rfl⟩, hf⟩

theorem gives_advance {u : Unit} : Gives advance c u c' ↔ c' = c.rest := by
  constructor
  · intro h
    cases h
    rfl
  · rintro rfl
    rfl

/-- What follows a step past the next token. -/
theorem gives_advance_bind {f : Unit → Reader β} {b : β} :
    Gives (advance >>= f) c b c' ↔ Gives (f ()) c.rest b c' := by
  rw [gives_bind]
  constructor
  · rintro ⟨_, c₁, ha, hf⟩
    rwa [gives_advance.mp ha] at hf
  · intro hf
    exact ⟨(), c.rest, gives_advance.mpr rfl, hf⟩

theorem gives_advance_pure {a b : β} :
    Gives (do advance; return a) c b c' ↔ b = a ∧ c' = c.rest := by
  rw [gives_advance_bind, gives_pure]

theorem gives_accept {s : Symbol} {b : Bool} :
    Gives (accept s) c b c' ↔
      (b = true ∧ c.At (some (.symbol s)) ∧ c' = c.rest) ∨
        (b = false ∧ c.NotAt (some (.symbol s)) ∧ c' = c) := by
  unfold accept
  rw [gives_peek_bind]
  constructor
  · rintro ⟨l, p, hl, h⟩
    by_cases hs : l = some (.symbol s)
    · simp only [if_pos hs, gives_advance_pure] at h
      exact Or.inl ⟨h.1, ⟨p, hs ▸ hl⟩, h.2⟩
    · simp only [if_neg hs, gives_pure] at h
      exact Or.inr ⟨h.1, ⟨l, ⟨p, hl⟩, hs⟩, h.2⟩
  · rintro (⟨hb, ⟨p, hl⟩, hc⟩ | ⟨hb, ⟨l, ⟨p, hl⟩, hs⟩, hc⟩)
    · refine ⟨_, p, hl, ?_⟩
      simp only [if_true, gives_advance_pure]
      exact ⟨hb, hc⟩
    · refine ⟨l, p, hl, ?_⟩
      simp only [if_neg hs, gives_pure]
      exact ⟨hb, hc⟩

/-- What follows a symbol that may be there. -/
theorem gives_accept_bind {s : Symbol} {f : Bool → Reader β} {b : β} :
    Gives (accept s >>= f) c b c' ↔
      (c.At (some (.symbol s)) ∧ Gives (f true) c.rest b c') ∨
        (c.NotAt (some (.symbol s)) ∧ Gives (f false) c b c') := by
  rw [gives_bind]
  constructor
  · rintro ⟨a, c₁, ha, hf⟩
    rcases gives_accept.mp ha with ⟨rfl, hat, rfl⟩ | ⟨rfl, hat, rfl⟩
    · exact Or.inl ⟨hat, hf⟩
    · exact Or.inr ⟨hat, hf⟩
  · rintro (⟨hat, hf⟩ | ⟨hat, hf⟩)
    · exact ⟨true, c.rest, gives_accept.mpr (Or.inl ⟨rfl, hat, rfl⟩), hf⟩
    · exact ⟨false, c, gives_accept.mpr (Or.inr ⟨rfl, hat, rfl⟩), hf⟩

theorem gives_expect {s : Symbol} {what : Expectation} {u : Unit} :
    Gives (expect s what) c u c' ↔ c.At (some (.symbol s)) ∧ c' = c.rest := by
  unfold expect
  rw [gives_peek_bind]
  constructor
  · rintro ⟨l, p, hl, h⟩
    by_cases hs : l = some (.symbol s)
    · simp only [if_pos hs, gives_advance] at h
      exact ⟨⟨p, hs ▸ hl⟩, h⟩
    · simp only [if_neg hs] at h
      exact absurd h not_gives_fail
  · rintro ⟨⟨p, hl⟩, rfl⟩
    refine ⟨_, p, hl, ?_⟩
    simp only [if_true, gives_advance]

theorem gives_propertyName {name : String} :
    Gives propertyName c name c' ↔ c.At (some (.identifier name)) ∧ c' = c.rest := by
  unfold propertyName
  rw [gives_peek_bind]
  constructor
  · rintro ⟨l, p, hl, h⟩
    dsimp only at h
    split at h
    next name' =>
      obtain ⟨rfl, rfl⟩ := gives_advance_pure.mp h
      exact ⟨⟨p, hl⟩, rfl⟩
    · exact absurd h not_gives_fail
  · rintro ⟨⟨p, hl⟩, rfl⟩
    exact ⟨_, p, hl, gives_advance_pure.mpr ⟨rfl, rfl⟩⟩

/-- What follows a symbol that has to be there. -/
theorem gives_expect_bind {s : Symbol} {what : Expectation} {f : Unit → Reader β} {b : β} :
    Gives (expect s what >>= f) c b c' ↔ c.At (some (.symbol s)) ∧ Gives (f ()) c.rest b c' := by
  rw [gives_bind]
  constructor
  · rintro ⟨_, c₁, hx, hf⟩
    obtain ⟨hat, rfl⟩ := gives_expect.mp hx
    exact ⟨hat, hf⟩
  · rintro ⟨hat, hf⟩
    exact ⟨(), c.rest, gives_expect.mpr ⟨hat, rfl⟩, hf⟩

/-- What follows a question about the next token. -/
theorem gives_test_bind (test : Option Lexeme → Bool) {f : Bool → Reader β} {b : β} :
    Gives ((do let (found, _) ← peek; return test found) >>= f) c b c' ↔
      ∃ l, c.At l ∧ Gives (f (test l)) c b c' := by
  rw [bind_assoc, gives_peek_bind]
  constructor
  · rintro ⟨l, p, hl, h⟩
    exact ⟨l, ⟨p, hl⟩, by simpa using h⟩
  · rintro ⟨l, ⟨p, hl⟩, h⟩
    exact ⟨l, p, hl, by simpa using h⟩

/-- What follows the question whether the next token is one given beforehand. -/
theorem gives_at_bind {l : Option Lexeme} {f : Bool → Reader β} {b : β} :
    Gives ((do let (found, _) ← peek; return decide (found = l)) >>= f) c b c' ↔
      (c.At l ∧ Gives (f true) c b c') ∨ (c.NotAt l ∧ Gives (f false) c b c') := by
  rw [gives_test_bind fun found => decide (found = l)]
  constructor
  · rintro ⟨l', hl, h⟩
    by_cases he : l' = l
    · exact Or.inl ⟨he ▸ hl, by simpa [he] using h⟩
    · exact Or.inr ⟨⟨l', hl, he⟩, by simpa [he] using h⟩
  · rintro (⟨hl, h⟩ | ⟨⟨l', hl, he⟩, h⟩)
    · exact ⟨l, hl, by simpa using h⟩
    · exact ⟨l', hl, by simpa [he] using h⟩

theorem gives_atWord_bind {word : String} {f : Bool → Reader β} {b : β} :
    Gives (atWord word >>= f) c b c' ↔
      (c.At (some (.identifier word)) ∧ Gives (f true) c b c') ∨
        (c.NotAt (some (.identifier word)) ∧ Gives (f false) c b c') :=
  gives_at_bind

theorem gives_atClosing_bind {closing : Option Symbol} {f : Bool → Reader β} {b : β} :
    Gives (atClosing closing >>= f) c b c' ↔
      (c.At (closing.map .symbol) ∧ Gives (f true) c b c') ∨
        (c.NotAt (closing.map .symbol) ∧ Gives (f false) c b c') :=
  gives_at_bind

/-! ## Operators -/

/-- The operator of the level that a lexeme stands for between operands. -/
def infixOf? (level : Nat) : Option Lexeme → Option BinaryOp
  | some (.symbol s) =>
    match BinaryOp.ofSymbol? s with
    | some op => if op.level = level then some op else none
    | none => none
  | _ => none

theorem infixOf?_eq_some {level : Nat} {s : Symbol} {op : BinaryOp} :
    infixOf? level (some (.symbol s)) = some op ↔
      BinaryOp.ofSymbol? s = some op ∧ op.level = level := by
  unfold infixOf?
  dsimp only
  cases BinaryOp.ofSymbol? s with
  | none => simp
  | some op' => grind

theorem infixOf?_eq_none {s : Symbol} (h : BinaryOp.ofSymbol? s = none) (level : Nat) :
    infixOf? level (some (.symbol s)) = none := by
  simp [infixOf?, h]

@[grind →]
theorem symbol_of_infixOf? {level : Nat} {l : Option Lexeme} {op : BinaryOp}
    (h : infixOf? level l = some op) : ∃ s, l = some (.symbol s) := by
  unfold infixOf? at h
  split at h
  · exact ⟨_, rfl⟩
  · cases h

/-- The operator that a lexeme stands for in front of an operand. -/
def unaryOf? : Option Lexeme → Option UnaryOp
  | some (.symbol s) => UnaryOp.ofSymbol? s
  | _ => none

@[grind →]
theorem symbol_of_unaryOf? {l : Option Lexeme} {op : UnaryOp}
    (h : unaryOf? l = some op) : ∃ s, l = some (.symbol s) := by
  unfold unaryOf? at h
  split at h
  · exact ⟨_, rfl⟩
  · cases h

/-- Goes past the next token if it reads as an operator. -/
def operator? {γ : Type} (classify : Option Lexeme → Option γ) : Reader (Option γ) := do
  let (found, _) ← peek
  match classify found with
  | some op => do
    advance
    return some op
  | none => return none

theorem infixOperator?_eq (level : Nat) : infixOperator? level = operator? (infixOf? level) := by
  unfold infixOperator? operator?
  congr 1
  funext ⟨l, p⟩
  rcases l with _ | name | digits | contents | s
  · rfl
  · rfl
  · rfl
  · rfl
  · dsimp only [infixOf?]
    cases BinaryOp.ofSymbol? s with
    | none => rfl
    | some op => by_cases h : op.level = level <;> simp only [h, if_true, if_false]

theorem unaryOperator?_eq : unaryOperator? = operator? unaryOf? := by
  unfold unaryOperator? operator?
  congr 1
  funext ⟨l, p⟩
  rcases l with _ | name | digits | contents | s
  · rfl
  · rfl
  · rfl
  · rfl
  · dsimp only [unaryOf?]
    cases UnaryOp.ofSymbol? s <;> rfl

/-- What follows an operator that may be there. -/
theorem gives_operator?_bind {γ : Type} {classify : Option Lexeme → Option γ}
    {f : Option γ → Reader β} {b : β} :
    Gives (operator? classify >>= f) c b c' ↔
      (∃ l op, c.At l ∧ classify l = some op ∧ Gives (f (some op)) c.rest b c') ∨
        (∃ l, c.At l ∧ classify l = none ∧ Gives (f none) c b c') := by
  rw [operator?, bind_assoc, gives_peek_bind]
  constructor
  · rintro ⟨l, p, hl, h⟩
    dsimp only at h
    cases hc : classify l with
    | some op =>
      rw [hc] at h
      simp only [bind_assoc, pure_bind, gives_advance_bind] at h
      exact Or.inl ⟨l, op, ⟨p, hl⟩, hc, h⟩
    | none =>
      rw [hc] at h
      exact Or.inr ⟨l, ⟨p, hl⟩, hc, by simpa using h⟩
  · rintro (⟨l, op, ⟨p, hl⟩, hc, h⟩ | ⟨l, ⟨p, hl⟩, hc, h⟩)
    · refine ⟨l, p, hl, ?_⟩
      simp only [hc, bind_assoc, pure_bind, gives_advance_bind]
      exact h
    · refine ⟨l, p, hl, ?_⟩
      simpa only [hc, pure_bind] using h

/-! ## Nesting -/

theorem gives_deepen {u : Unit} : Gives deepen c u c' ↔ c.depth < maxNesting ∧ c' = c.deeper := by
  unfold deepen
  rw [gives_bind]
  constructor
  · rintro ⟨c₀, c₁, hg, h⟩
    cases hg
    by_cases hd : c.depth < maxNesting
    · simp only [if_pos hd] at h
      cases h
      exact ⟨hd, rfl⟩
    · simp only [if_neg hd] at h
      obtain ⟨l, p, -, hf⟩ := gives_peek_bind.mp h
      exact absurd hf not_gives_fail
  · rintro ⟨hd, rfl⟩
    refine ⟨c, c, rfl, ?_⟩
    simp only [if_pos hd]
    rfl

theorem gives_deepen_bind {f : Unit → Reader β} {b : β} :
    Gives (deepen >>= f) c b c' ↔ c.depth < maxNesting ∧ Gives (f ()) c.deeper b c' := by
  rw [gives_bind]
  constructor
  · rintro ⟨_, c₁, hx, hf⟩
    obtain ⟨hd, rfl⟩ := gives_deepen.mp hx
    exact ⟨hd, hf⟩
  · rintro ⟨hd, hf⟩
    exact ⟨(), c.deeper, gives_deepen.mpr ⟨hd, rfl⟩, hf⟩

/-- Levels are given back, with a result. -/
theorem gives_release_pure {k : Nat} {a b : β} :
    Gives (do release k; return a) c b c' ↔ b = a ∧ c' = c.release k := by
  rw [gives_bind]
  constructor
  · rintro ⟨_, c₁, hx, hf⟩
    cases hx
    exact gives_pure.mp hf
  · intro h
    exact ⟨(), c.release k, rfl, gives_pure.mpr h⟩

end Reader

/-! ## The end of an operand -/

/-- The lexeme goes on no operand of the level or of a tighter one. -/
def Stops (level : Nat) (l : Option Lexeme) : Prop :=
  (∀ level', level ≤ level' → Reader.infixOf? level' l = none) ∧ l ≠ some (.symbol .leftParen) ∧
    l ≠ some (.symbol .dot) ∧ l ≠ some (.symbol .leftBracket)

theorem Stops.mono {level level' : Nat} {l : Option Lexeme} (h : Stops level l)
    (hle : level ≤ level') : Stops level' l :=
  ⟨fun k hk => h.1 k (hle.trans hk), h.2⟩

theorem stops_of_ofSymbol? {s : Symbol} {op : BinaryOp} (hop : BinaryOp.ofSymbol? s = some op) :
    Stops (op.level + 1) (some (.symbol s)) := by
  refine ⟨fun level hle => ?_, ?_⟩
  · by_contra hne
    obtain ⟨op', hop'⟩ := Option.ne_none_iff_exists'.mp hne
    obtain ⟨hsymbol, rfl⟩ := Reader.infixOf?_eq_some.mp hop'
    rw [hop] at hsymbol
    cases hsymbol
    omega
  · refine ⟨?_, ?_, ?_⟩ <;> rintro ⟨⟩ <;> cases hop

theorem stops_none (level : Nat) : Stops level none :=
  ⟨fun _ _ => rfl, by simp⟩

theorem stops_cons {s : Symbol} (h : BinaryOp.ofSymbol? s = none)
    (hs : s ≠ .leftParen ∧ s ≠ .dot ∧ s ≠ .leftBracket) (level : Nat) (rest : List Lexeme) :
    Stops level (.symbol s :: rest).head? :=
  ⟨fun level' _ => Reader.infixOf?_eq_none h level', by simpa using hs⟩

theorem stops_rightParen (level : Nat) (rest : List Lexeme) :
    Stops level (Lexeme.symbol .rightParen :: rest).head? :=
  stops_cons rfl (by decide) level rest

end Isa16
