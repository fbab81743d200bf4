import Isa16.Proofs.Program.Journal
import Isa16.Proofs.Program.Placeless
import Isa16.Proofs.Program.Reading

/-!
# Reading makes progress

* `Tracks`, `Stopped`: a journal is in order at a place between tokens, and where reading stopped.
* `Ends`: a step with a journal ends as the plain one does, for a reason other than its allowance,
  with its journal in order. One rule for each step: `ends_bind`, `Reader.Looks.ends`,
  `ends_consume_bind`, `ends_expect`, `ends_accept_bind`, `ends_operator?_bind`,
  `Production.Calls.ends`.
* `Production.exit`: the stage that a routine leaves. `Production.Ready`: where it may be called.
* `Production.BodyEnds`, `Production.ends_record`: a routine ends so if those that it calls do, by
  one lemma for each; hence every routine does.
* `journal`: a text is read with a journal. `Progress`: what the journal tells then.
* **`parse_progresses`**: reading a text goes round no loop and enters no routine again without
  taking a token, and takes the end of the text only to fail.
-/

namespace Isa16

open Recorder

/-! ## Journals in order -/

/-- The journal is in order at the place: what was taken and what is left are the lexemes, at least
`m` of `k` tokens were taken, and the stage is at most `j`. -/
structure Tracks (lexemes : List Lexeme) (k m j : Nat) (c : Cursor) (events : List Event) :
    Prop where
  tokens : taken events ++ c.tokens.map (fun t => some t.lexeme) = lexemes.map some
  left : c.tokens.length + m ≤ k
  stage : ∃ s ≤ j, stageAfter 0 events = some s

/-- The journal is in order where reading stopped. If the end of the text was taken, this came last
and behind all tokens. -/
structure Stopped (lexemes : List Lexeme) (events : List Event) : Prop where
  stage : ∃ s, stageAfter 0 events = some s
  tokens : taken events <+: lexemes.map some ∨
    ∃ before, events = before ++ [.takes none] ∧ taken before = lexemes.map some

variable {lexemes : List Lexeme} {k m m' j j' : Nat} {c c' : Cursor} {events : List Event}

theorem taken_snoc (events : List Event) (l : Option Lexeme) :
    taken (events ++ [.takes l]) = taken events ++ [l] := by
  simp [taken]

theorem taken_snoc_enters (events : List Event) (p : Production) :
    taken (events ++ [.enters p]) = taken events := by
  simp [taken]

namespace Tracks

theorem mono (h : Tracks lexemes k m j c events) (hm : m' ≤ m) (hj : j ≤ j') :
    Tracks lexemes k m' j' c events := by
  obtain ⟨s, hs, hstage⟩ := h.stage
  exact ⟨h.tokens, (Nat.add_le_add_left hm _).trans h.left, s, hs.trans hj, hstage⟩

theorem of_tokens_eq (h : Tracks lexemes k m j c events) (hc : c'.tokens = c.tokens) :
    Tracks lexemes k m j c' events :=
  ⟨hc ▸ h.tokens, hc ▸ h.left, h.stage⟩

theorem stopped (h : Tracks lexemes k m j c events) : Stopped lexemes events :=
  ⟨h.stage.imp fun _ hs => hs.2, Or.inl ⟨_, h.tokens⟩⟩

theorem enters {p : Production} (h : Tracks lexemes k m j c events) (hj : j < p.stage) :
    Tracks lexemes k m p.stage c (events ++ [.enters p]) := by
  obtain ⟨s, hs, hstage⟩ := h.stage
  refine ⟨?_, h.left, p.stage, le_rfl, ?_⟩
  · rw [taken_snoc_enters, h.tokens]
  · exact stageAfter_snoc.mpr ⟨s, hstage, next_enters.mpr ⟨hs.trans_lt hj, rfl⟩⟩

theorem takes {t : Token} {ts : List Token} (h : Tracks lexemes k m j c events)
    (hc : c.tokens = t :: ts) :
    Tracks lexemes k (m + 1) 0 c.rest (events ++ [.takes (some t.lexeme)]) := by
  obtain ⟨s, -, hstage⟩ := h.stage
  refine ⟨?_, ?_, 0, le_rfl, stageAfter_snoc.mpr ⟨s, hstage, rfl⟩⟩
  · rw [taken_snoc, ← h.tokens, hc, Cursor.rest_tokens, hc]
    simp
  · have hleft := h.left
    rw [hc, List.length_cons] at hleft
    rw [Cursor.rest_tokens, hc, List.tail_cons]
    omega

theorem stopped_takes (h : Tracks lexemes k m j c events) {l : Option Lexeme} {p : Position}
    (hl : c.front? = some (l, p)) : Stopped lexemes (events ++ [.takes l]) := by
  obtain ⟨s, -, hstage⟩ := h.stage
  cases hc : c.tokens with
  | cons t ts =>
    simp only [Cursor.front?, hc, Option.some.injEq, Prod.mk.injEq] at hl
    exact hl.1 ▸ (h.takes hc).stopped
  | nil =>
    have hall : taken events = lexemes.map some := by simpa [hc] using h.tokens
    unfold Cursor.front? at hl
    rw [hc] at hl
    cases hending : c.ending with
    | fault => simp [hending] at hl
    | complete =>
      simp only [hending, Option.some.injEq, Prod.mk.injEq] at hl
      obtain ⟨rfl, -⟩ := hl
      exact ⟨⟨s, stageAfter_snoc.mpr ⟨s, hstage, rfl⟩⟩, Or.inr ⟨events, rfl, hall⟩⟩

end Tracks

/-! ## Steps that end in order -/

/-- Where `P` holds, the step with a journal ends as the plain one does: in `Q`, or for a reason
other than its allowance and with the journal in order. -/
def Ends {α : Type} (lexemes : List Lexeme) (P : Cursor → List Event → Prop) (x : Recorder α)
    (y : Reader α) (Q : α → Cursor → List Event → Prop) : Prop :=
  ∀ ⦃c : Cursor⦄ ⦃events : List Event⦄, P c events →
    ∃ events', x.outcome c events = (y.run c, events') ∧
      (∀ ⦃a : α⦄ ⦃c' : Cursor⦄, y.Gives c a c' → Q a c' events') ∧
      ∀ ⦃e : Halt⦄, y.run c = .error e → e ≠ .exhausted ∧ Stopped lexemes events'

section

variable {α β : Type} {P P' : Cursor → List Event → Prop} {Q Q' : α → Cursor → List Event → Prop}
  {R : β → Cursor → List Event → Prop} {x x' : Recorder α} {y y' : Reader α}

theorem Ends.weaken (h : Ends lexemes P x y Q) (hQ : ∀ a c events, Q a c events → Q' a c events) :
    Ends lexemes P x y Q' := by
  intro c events hP
  obtain ⟨events', hrun, hgives, herror⟩ := h hP
  exact ⟨events', hrun, fun a c' ha => hQ a c' events' (hgives ha), herror⟩

theorem Ends.strengthen (h : Ends lexemes P x y Q) (hP : ∀ c events, P' c events → P c events) :
    Ends lexemes P' x y Q :=
  fun c events hP' => h (hP c events hP')

theorem ends_and {p : Prop} (h : p → Ends lexemes P x y Q) :
    Ends lexemes (fun c events => p ∧ P c events) x y Q :=
  fun _ _ hP => h hP.1 hP.2

theorem ends_pure {a : α} (h : ∀ c events, P c events → Q a c events) :
    Ends lexemes P (pure a) (pure a) Q := by
  intro c events hP
  refine ⟨events, rfl, fun b c' hb => ?_, fun e he => by cases he⟩
  obtain ⟨rfl, rfl⟩ := Reader.gives_pure.mp hb
  exact h _ _ hP

theorem ends_bind {f : α → Recorder β} {g : α → Reader β} (hx : Ends lexemes P x y Q)
    (hf : ∀ a, Ends lexemes (Q a) (f a) (g a) R) : Ends lexemes P (x >>= f) (y >>= g) R := by
  intro c events hP
  obtain ⟨events₁, hrun, hgives, herror⟩ := hx hP
  rw [Recorder.outcome_bind, hrun]
  unfold Reader.Gives
  rw [StateT.run_bind]
  cases hy : y.run c with
  | error e =>
    refine ⟨events₁, rfl, ?_, ?_⟩
    · rintro b c' ⟨⟩
    · rintro e' ⟨⟩
      exact herror hy
  | ok r => exact hf r.1 (hgives hy)

theorem ends_ite {p : Prop} [Decidable p] (h : p → Ends lexemes P x y Q)
    (h' : ¬ p → Ends lexemes P x' y' Q) :
    Ends lexemes P (if p then x else x') (if p then y else y') Q := by
  split_ifs with hp
  · exact h hp
  · exact h' hp

theorem ends_bind_ite {S : Bool → Cursor → List Event → Prop} {z : Recorder Bool} {w : Reader Bool}
    (hz : Ends lexemes P z w S) (htrue : Ends lexemes (S true) x y Q)
    (hfalse : Ends lexemes (S false) x' y' Q) :
    Ends lexemes P (z >>= fun b => if b = true then x else x')
      (w >>= fun b => if b = true then y else y') Q := by
  refine ends_bind hz fun b => ?_
  cases b with
  | true => exact htrue
  | false => exact hfalse

end

/-! ## Steps that take nothing -/

namespace Reader

variable {α β : Type} {y : Reader α}

/-- The step takes no token, and does not stop for its allowance. -/
def Looks (y : Reader α) : Prop :=
  ∀ c, (∀ ⦃a : α⦄ ⦃c' : Cursor⦄, y.Gives c a c' → c'.tokens = c.tokens) ∧
    y.run c ≠ .error .exhausted

theorem looks_bind {g : α → Reader β} (hy : Looks y) (hg : ∀ a, Looks (g a)) :
    Looks (y >>= g) := by
  intro c
  constructor
  · intro b c' h
    obtain ⟨a, c₁, h₁, h₂⟩ := gives_bind.mp h
    rw [(hg a c₁).1 h₂, (hy c).1 h₁]
  · rw [StateT.run_bind]
    cases hrun : y.run c with
    | error e =>
      intro h
      cases h
      exact (hy c).2 hrun
    | ok r => exact (hg r.1 r.2).2

theorem looks_pure (a : α) : Looks (pure a) := by
  refine fun c => ⟨fun b c' h => ?_, fun h => by cases h⟩
  rw [(gives_pure.mp h).2]

theorem looks_fail (p : Position) (fault : ParseFault) : Looks (fail p fault : Reader α) :=
  fun _ => ⟨fun _ _ h => absurd h not_gives_fail, fun h => by cases h⟩

theorem looks_peek : Looks peek := by
  refine fun c => ⟨fun r c' h => ?_, ?_⟩
  · rw [(gives_peek.mp h).2]
  · rw [run_peek]
    split <;> simp

theorem looks_atWord (word : String) : Looks (atWord word) :=
  looks_bind looks_peek fun _ => looks_pure _

theorem looks_atClosing (closing : Option Symbol) : Looks (atClosing closing) :=
  looks_bind looks_peek fun _ => looks_pure _

theorem looks_release (levels : Nat) : Looks (release levels) := by
  refine fun c => ⟨fun u c' h => ?_, fun h => by cases h⟩
  cases h
  rfl

theorem looks_deepen : Looks deepen := by
  refine fun c => ⟨fun u c' h => ?_, ?_⟩
  · rw [(gives_deepen.mp h).2, Cursor.deeper_tokens]
  · by_cases hdepth : c.depth < maxNesting
    · have hgives : Gives deepen c () c.deeper := gives_deepen.mpr ⟨hdepth, rfl⟩
      rw [show deepen.run c = _ from hgives]
      exact nofun
    · rw [run_deepen_of_not_lt hdepth]
      exact (looks_bind looks_peek (fun r => looks_fail r.2 .nestedTooDeeply) c).2

theorem Looks.ends (h : Looks y) :
    Ends lexemes (Tracks lexemes k m j) (quiet y) y fun _ => Tracks lexemes k m j := by
  intro c events htracks
  refine ⟨events, rfl, fun a c' ha => htracks.of_tokens_eq ((h c).1 ha), fun e he => ?_⟩
  refine ⟨fun hexhausted => (h c).2 ?_, htracks.stopped⟩
  rw [he, hexhausted]

end Reader

/-! ## Steps that take a token -/

section

variable {β : Type} {Q : β → Cursor → List Event → Prop}

theorem run_peek_of_front? {r : Option Lexeme × Position} (h : c.front? = some r) :
    Reader.peek.run c = .ok (r, c) :=
  Reader.gives_peek.mpr ⟨h, rfl⟩

theorem exists_run_peek_of_front? (h : c.front? = none) :
    ∃ e, Reader.peek.run c = .error (.fault e) := by
  rw [Reader.run_peek]
  unfold Cursor.front? at h
  split at h
  · cases h
  · cases h
  · exact ⟨_, rfl⟩

theorem outcome_consume {r : Option Lexeme × Position} (h : c.front? = some r)
    (events : List Event) :
    consume.outcome c events = (.ok (r, c.rest), events ++ [.takes r.1]) := by
  rw [consume, Recorder.outcome_bind, Recorder.outcome_quiet, run_peek_of_front? h]
  rfl

theorem outcome_consume_error {e : Halt} (h : Reader.peek.run c = .error e)
    (events : List Event) : consume.outcome c events = (.error e, events) := by
  rw [consume, Recorder.outcome_bind, Recorder.outcome_quiet, h]

/-- What is done with a token that was taken, and what without a journal is done with one that was
looked at: it is refused, or taken if it is a token. -/
inductive Answers (lexemes : List Lexeme) (k m : Nat) (Q : β → Cursor → List Event → Prop) :
    Option Lexeme → Recorder β → Reader β → Prop
  | refuse {l : Option Lexeme} (p : Position) (fault : ParseFault) :
    Answers lexemes k m Q l (quiet (Reader.fail p fault)) (Reader.fail p fault)
  | pass {l : Lexeme} {x : Recorder β} {y : Reader β}
    (h : Ends lexemes (Tracks lexemes k (m + 1) 0) x y Q) :
    Answers lexemes k m Q (some l) x (Reader.advance >>= fun _ => y)

theorem Cursor.tokens_of_front? {l : Lexeme} {p : Position} (h : c.front? = some (some l, p)) :
    ∃ t ts, c.tokens = t :: ts ∧ t.lexeme = l := by
  unfold Cursor.front? at h
  split at h
  next t ts hc =>
    cases h
    exact ⟨t, ts, hc, rfl⟩
  · cases h
  · cases h

/-- The step with a journal goes on behind what it took, the plain one before it. -/
theorem Answers.ends {l : Option Lexeme} {p : Position} {x : Recorder β} {y : Reader β}
    (h : Answers lexemes k m Q l x y) (htracks : Tracks lexemes k m j c events)
    (hfront : c.front? = some (l, p)) :
    ∃ events', x.outcome c.rest (events ++ [.takes l]) = (y.run c, events') ∧
      (∀ ⦃a : β⦄ ⦃c' : Cursor⦄, y.Gives c a c' → Q a c' events') ∧
      ∀ ⦃e : Halt⦄, y.run c = .error e → e ≠ .exhausted ∧ Stopped lexemes events' := by
  cases h with
  | refuse p' fault =>
    refine ⟨_, rfl, fun a c' h => absurd h Reader.not_gives_fail, fun e he => ?_⟩
    cases he
    exact ⟨nofun, htracks.stopped_takes hfront⟩
  | pass h =>
    obtain ⟨t, ts, hc, rfl⟩ := Cursor.tokens_of_front? hfront
    exact h (htracks.takes hc)

/-- A token that has to be something is taken and then looked at. -/
theorem ends_consume_bind {f : Option Lexeme × Position → Recorder β}
    {g : Option Lexeme × Position → Reader β}
    (h : ∀ l p, Answers lexemes k m Q l (f (l, p)) (g (l, p))) :
    Ends lexemes (Tracks lexemes k m j) (consume >>= f) (Reader.peek >>= g) Q := by
  intro c events htracks
  cases hfront : c.front? with
  | none =>
    obtain ⟨e, hpeek⟩ := exists_run_peek_of_front? hfront
    unfold Reader.Gives
    rw [Recorder.outcome_bind, outcome_consume_error hpeek, StateT.run_bind, hpeek]
    refine ⟨events, rfl, ?_, ?_⟩
    · rintro b c' ⟨⟩
    · rintro e' ⟨⟩
      exact ⟨nofun, htracks.stopped⟩
  | some r =>
    unfold Reader.Gives
    rw [Recorder.outcome_bind, outcome_consume hfront, StateT.run_bind, run_peek_of_front? hfront]
    exact (h r.1 r.2).ends htracks hfront

theorem ends_consume_of_at {l : Lexeme} {f : Option Lexeme × Position → Recorder β} {y : Reader β}
    (h : ∀ r, Ends lexemes (Tracks lexemes k (m + 1) 0) (f r) y Q) :
    Ends lexemes (fun c events => c.At (some l) ∧ Tracks lexemes k m j c events)
      (consume >>= f) (Reader.advance >>= fun _ => y) Q := by
  rintro c events ⟨⟨p, hfront⟩, htracks⟩
  rw [Recorder.outcome_bind, outcome_consume hfront]
  exact (Answers.pass (h (some l, p))).ends htracks hfront

theorem ends_peek_bind {f : Option Lexeme × Position → Recorder β}
    {g : Option Lexeme × Position → Reader β}
    (h : ∀ l p, Ends lexemes (fun c events => c.At l ∧ Tracks lexemes k m j c events)
      (f (l, p)) (g (l, p)) Q) :
    Ends lexemes (Tracks lexemes k m j) (quiet Reader.peek >>= f) (Reader.peek >>= g) Q := by
  refine ends_bind (Q := fun r c events => c.At r.1 ∧ Tracks lexemes k m j c events) ?_
    fun r => h r.1 r.2
  intro c events htracks
  obtain ⟨events', hrun, hgives, herror⟩ := Reader.looks_peek.ends htracks
  refine ⟨events', hrun, fun r c' hr => ⟨⟨r.2, ?_⟩, hgives hr⟩, herror⟩
  obtain ⟨hfront, rfl⟩ := Reader.gives_peek.mp hr
  exact hfront

theorem ends_expect (s : Symbol) (what : Expectation) :
    Ends lexemes (Tracks lexemes k m j) (Recorder.expect s what) (Reader.expect s what)
      fun _ => Tracks lexemes k (m + 1) 0 := by
  refine ends_consume_bind fun l p => ?_
  dsimp only
  split_ifs with hs
  · subst hs
    rw [← bind_pure Reader.advance]
    exact .pass (ends_pure fun _ _ h => h)
  · exact .refuse p _

theorem ends_propertyName :
    Ends lexemes (Tracks lexemes k m j) Recorder.propertyName Reader.propertyName
      fun _ => Tracks lexemes k (m + 1) 0 := by
  refine ends_consume_bind fun l p => ?_
  rcases l with _ | name | digits | contents | s
  · exact .refuse p _
  · exact .pass (ends_pure fun _ _ h => h)
  · exact .refuse p _
  · exact .refuse p _
  · exact .refuse p _

/-- A symbol that may be there is taken only if it was seen. -/
theorem ends_accept_bind {s : Symbol} {x x' : Recorder β} {y y' : Reader β}
    (htrue : Ends lexemes (Tracks lexemes k (m + 1) 0) x y Q)
    (hfalse : Ends lexemes (Tracks lexemes k m j) x' y' Q) :
    Ends lexemes (Tracks lexemes k m j)
      (Recorder.accept s >>= fun found => if found = true then x else x')
      (Reader.accept s >>= fun found => if found = true then y else y') Q := by
  refine ends_bind_ite (S := fun found => if found then Tracks lexemes k (m + 1) 0
    else Tracks lexemes k m j) ?_ htrue hfalse
  refine ends_peek_bind fun l p => ends_ite (fun hs => ?_) fun hs => ?_
  · subst hs
    exact ends_consume_of_at fun _ => ends_pure fun _ _ h => h
  · exact ends_pure fun _ _ h => h.2

/-- An operator that may be there is taken only if it was seen. -/
theorem ends_operator?_bind {γ : Type} {classify : Option Lexeme → Option γ}
    (hclassify : classify none = none) {f : Option γ → Recorder β} {g : Option γ → Reader β}
    (hsome : ∀ op, Ends lexemes (Tracks lexemes k (m + 1) 0) (f (some op)) (g (some op)) Q)
    (hnone : Ends lexemes (Tracks lexemes k m j) (f none) (g none) Q) :
    Ends lexemes (Tracks lexemes k m j) (Recorder.operator? classify >>= f)
      (Reader.operator? classify >>= g) Q := by
  refine ends_bind (Q := fun found => if found.isSome then Tracks lexemes k (m + 1) 0
    else Tracks lexemes k m j) ?_ fun found => ?_
  · refine ends_peek_bind fun l p => ?_
    dsimp only
    cases l with
    | none =>
      rw [hclassify]
      exact ends_pure fun _ _ h => h.2
    | some l =>
      cases classify (some l) with
      | none => exact ends_pure fun _ _ h => h.2
      | some op => exact ends_consume_of_at fun _ => ends_pure fun _ _ h => h
  · cases found with
    | none => exact hnone
    | some op => exact hsome op

/-- A word that may be there is seen, and not taken. -/
theorem ends_atWord_bind {word : String} {x x' : Recorder β} {y y' : Reader β}
    (htrue : Ends lexemes (fun c events => c.At (some (.identifier word)) ∧
      Tracks lexemes k m j c events) x y Q)
    (hfalse : Ends lexemes (Tracks lexemes k m j) x' y' Q) :
    Ends lexemes (Tracks lexemes k m j)
      (quiet (Reader.atWord word) >>= fun found => if found = true then x else x')
      (Reader.atWord word >>= fun found => if found = true then y else y') Q := by
  refine ends_bind_ite (S := fun found c events => (found = true → c.At (some (.identifier word))) ∧
    Tracks lexemes k m j c events) ?_ (htrue.strengthen fun _ _ h => ⟨h.1 rfl, h.2⟩)
    (hfalse.strengthen fun _ _ h => h.2)
  intro c events htracks
  obtain ⟨events', hrun, hgives, herror⟩ := (Reader.looks_atWord word).ends htracks
  refine ⟨events', hrun, fun found c' h => ⟨fun hfound => ?_, hgives h⟩, herror⟩
  obtain ⟨l, p, hfront, h⟩ := Reader.gives_peek_bind.mp h
  obtain ⟨hdecide, rfl⟩ := Reader.gives_pure.mp h
  have hl : l = some (.identifier word) := of_decide_eq_true (hdecide.symm.trans hfound)
  exact ⟨p, hl ▸ hfront⟩

theorem ends_separator (closing : Option Symbol) (s : Stmt) :
    Ends lexemes (Tracks lexemes k m j) (Recorder.separator closing s) (Reader.separator closing s)
      fun _ => Tracks lexemes k m j := by
  refine ends_ite (fun _ => ends_pure fun _ _ h => h) fun _ => ?_
  refine ends_bind (Reader.looks_atClosing closing).ends fun atEnd => ?_
  refine ends_ite (fun _ => ends_pure fun _ _ h => h) fun _ => ?_
  exact (ends_expect _ _).weaken fun _ _ _ h => h.mono (Nat.le_succ m) (Nat.zero_le j)

end

/-! ## Routines -/

namespace Production

/-- The stage that a routine leaves. -/
@[simp]
def exit : (p : Production) → p.Result → Nat
  | property _, none | applicationChain .., _ | application, _ | unary, _ => 2
  | property _, some _ | primary, _ | construction, _ | constructionChain .., _ | arguments, _
  | argumentsAfter, _ => 0
  | binary level, _ | binaryChain level _ _, _ => 2 + (BinaryOp.levels - level)
  | expression, _ | statementBody, _ | conditionalStatement, _ | branch, _ | statement, _ => 12
  | statements _, _ => 13

/-- What holds where a routine is called. -/
def Ready : Production → Cursor → Prop
  | conditionalStatement, c => c.At (some (.identifier "if"))
  | binaryChain level _ _, _ => level < BinaryOp.levels
  | _, _ => True

/-- With an allowance for `k` tokens and from an earlier stage, the routine ends in order. -/
def Meets (lexemes : List Lexeme) (n : Nat) (p : Production) (x : Recorder p.Result)
    (y : Reader p.Result) : Prop :=
  ∀ ⦃k j : Nat⦄, p.cost + 20 * k ≤ n → j < p.stage →
    Ends lexemes (fun c events => p.Ready c ∧ Tracks lexemes k 0 j c events) x y
      fun r => Tracks lexemes k (p.least r) (p.exit r)

/-- In a routine that costs `w` and has an allowance for `k` tokens, the routines that it calls end
in order. -/
structure Calls (lexemes : List Lexeme) (n k w : Nat)
    (call : (p : Production) → Recorder p.Result) (call' : (p : Production) → Reader p.Result) :
    Prop where
  meets (p : Production) : p.Meets lexemes n (call p) (call' p)
  allows : w + 20 * k ≤ n + 1

variable {n w : Nat} {call : (p : Production) → Recorder p.Result}
  {call' : (p : Production) → Reader p.Result}

/-- A routine may be called behind a token, or if it costs less. -/
theorem Calls.ends_of_ready (h : Calls lexemes n k w call call') (q : Production)
    {Q : q.Result → Cursor → List Event → Prop} (hm : 0 < m ∨ q.cost < w) (hj : j < q.stage)
    (hQ : ∀ r c events, Tracks lexemes k (m + q.least r) (q.exit r) c events → Q r c events) :
    Ends lexemes (fun c events => q.Ready c ∧ Tracks lexemes k m j c events) (call q) (call' q)
      Q := by
  rintro c events ⟨hready, htracks⟩
  have hleft := htracks.left
  have hallows := h.allows
  have hcost := q.cost_le
  have hallow : q.cost + 20 * (k - m) ≤ n := by omega
  obtain ⟨events', hrun, hgives, herror⟩ := h.meets q hallow hj
    ⟨hready, htracks.tokens, by omega, htracks.stage⟩
  refine ⟨events', hrun, fun r c' hr => hQ r c' events' ?_, herror⟩
  obtain ⟨htokens, hleft', hstage⟩ := hgives hr
  exact ⟨htokens, by omega, hstage⟩

theorem Calls.ends (h : Calls lexemes n k w call call') (q : Production)
    {Q : q.Result → Cursor → List Event → Prop} (hready : ∀ c, q.Ready c)
    (hm : 0 < m ∨ q.cost < w) (hj : j < q.stage)
    (hQ : ∀ r c events, Tracks lexemes k (m + q.least r) (q.exit r) c events → Q r c events) :
    Ends lexemes (Tracks lexemes k m j) (call q) (call' q) Q :=
  (h.ends_of_ready q hm hj hQ).strengthen fun c _ htracks => ⟨hready c, htracks⟩

/-- A routine is called, and more is done behind it. -/
theorem Calls.ends_then {β : Type} (h : Calls lexemes n k w call call') (q : Production)
    {f : q.Result → Recorder β} {g : q.Result → Reader β} {Q : β → Cursor → List Event → Prop}
    (hready : ∀ c, q.Ready c) (hm : 0 < m ∨ q.cost < w) (hj : j < q.stage)
    (hf : ∀ r, Ends lexemes (Tracks lexemes k (m + q.least r) (q.exit r)) (f r) (g r) Q) :
    Ends lexemes (Tracks lexemes k m j) (call q >>= f) (call' q >>= g) Q :=
  ends_bind (h.ends q hready hm hj fun _ _ _ ht => ht) hf

/-- A routine ends with a result behind enough tokens. -/
theorem ends_return (p : Production) {r : p.Result} (hm : p.least r ≤ m) (hj : j ≤ p.exit r) :
    Ends lexemes (Tracks lexemes k m j) (pure r) (pure r)
      fun r => Tracks lexemes k (p.least r) (p.exit r) :=
  ends_pure fun _ _ ht => ht.mono hm hj

/-- A routine ends in order if those that it calls do. For each call it is to be shown that the
routine may be called there, that a token was taken or it costs less, and that its stage is
later. -/
def BodyEnds (lexemes : List Lexeme) (n k : Nat) (call : (p : Production) → Recorder p.Result)
    (call' : (p : Production) → Reader p.Result) (p : Production) : Prop :=
  Calls lexemes n k p.cost call call' →
    Ends lexemes (fun c events => p.Ready c ∧ Tracks lexemes k 0 p.stage c events)
      (p.recorded call) (p.body ⟨id, Reader.release, call'⟩)
      fun r => Tracks lexemes k (p.least r) (p.exit r)

/-! ### Statements -/

theorem ends_statements (closing : Option Symbol) :
    (statements closing).BodyEnds lexemes n k call call' := by
  intro h
  refine ends_and fun _ => ?_
  refine ends_bind_ite (Reader.looks_atClosing closing).ends
    (ends_return (.statements closing) (by simp) (by simp)) ?_
  refine ends_accept_bind ?_ ?_
  · exact h.ends (.statements closing) (fun _ => trivial) (by simp) (by simp)
      fun _ _ _ ht => ht.mono (by simp) (by simp)
  · refine h.ends_then .statement (fun _ => trivial) (by simp) (by simp) fun s => ?_
    refine ends_bind (ends_separator closing s) fun _ => ?_
    refine h.ends_then (.statements closing) (fun _ => trivial) (by simp) (by simp) fun _ => ?_
    exact ends_return (.statements closing) (by simp) (by simp)

theorem ends_statement : statement.BodyEnds lexemes n k call call' := by
  intro h
  refine ends_and fun _ => ?_
  refine ends_bind Reader.looks_deepen.ends fun _ => ?_
  refine h.ends_then .statementBody (fun _ => trivial) (by simp) (by simp) fun s => ?_
  refine ends_bind (Reader.looks_release 1).ends fun _ => ?_
  exact ends_return .statement (by simp) (by simp)

theorem ends_statementBody : statementBody.BodyEnds lexemes n k call call' := by
  intro h
  refine ends_and fun _ => ?_
  refine ends_atWord_bind ?_ ?_
  · exact h.ends_of_ready .conditionalStatement (by simp) (by simp)
      fun _ _ _ ht => ht.mono (by simp) (by simp)
  · refine h.ends_then .expression (fun _ => trivial) (by simp) (by simp) fun e => ?_
    refine ends_accept_bind ?_ ?_
    · refine h.ends_then .expression (fun _ => trivial) (by simp) (by simp) fun _ => ?_
      exact ends_return .statementBody (by simp) (by simp)
    · exact ends_return .statementBody (by simp) (by simp)

theorem ends_conditionalStatement : conditionalStatement.BodyEnds lexemes n k call call' := by
  intro h
  refine ends_consume_of_at fun _ => ?_
  refine ends_bind (ends_expect .leftParen .conditionOpen) fun _ => ?_
  refine h.ends_then .expression (fun _ => trivial) (by simp) (by simp) fun _ => ?_
  refine ends_bind (ends_expect .rightParen .conditionClose) fun _ => ?_
  refine h.ends_then .branch (fun _ => trivial) (by simp) (by simp) fun _ => ?_
  refine ends_atWord_bind ?_ ?_
  · refine ends_consume_of_at fun _ => ?_
    refine h.ends_then .branch (fun _ => trivial) (by simp) (by simp) fun _ => ?_
    exact ends_return .conditionalStatement (by simp) (by simp)
  · exact ends_return .conditionalStatement (by simp) (by simp)

theorem ends_branch : branch.BodyEnds lexemes n k call call' := by
  intro h
  refine ends_and fun _ => ?_
  refine ends_accept_bind ?_ ?_
  · refine h.ends_then (.statements _) (fun _ => trivial) (by simp) (by simp) fun _ => ?_
    refine ends_bind (ends_expect .rightBrace .blockClose) fun _ => ?_
    exact ends_return .branch (by simp) (by simp)
  · refine h.ends_then .statement (fun _ => trivial) (by simp) (by simp) fun _ => ?_
    exact ends_return .branch (by simp) (by simp)

/-! ### Expressions and operators -/

theorem ends_expression : expression.BodyEnds lexemes n k call call' := by
  intro h
  refine ends_and fun _ => ?_
  refine ends_bind Reader.looks_deepen.ends fun _ => ?_
  refine h.ends_then (.binary 0) (fun _ => trivial) (by simp [BinaryOp.levels])
    (by simp [BinaryOp.levels]) fun condition => ?_
  refine ends_accept_bind ?_ ?_
  · refine h.ends_then .expression (fun _ => trivial) (by simp) (by simp) fun _ => ?_
    refine ends_bind (ends_expect .colon .alternative) fun _ => ?_
    refine h.ends_then .expression (fun _ => trivial) (by simp) (by simp) fun _ => ?_
    refine ends_bind (Reader.looks_release 1).ends fun _ => ?_
    exact ends_return .expression (by simp) (by simp)
  · refine ends_bind (Reader.looks_release 1).ends fun _ => ?_
    exact ends_return .expression (by simp) (by simp [BinaryOp.levels])

theorem ends_binary (level : Nat) : (binary level).BodyEnds lexemes n k call call' := by
  intro h
  refine ends_and fun _ => ends_ite (fun hlevel => ?_) fun hlevel => ?_
  · refine h.ends_then (.binary (level + 1)) (fun _ => trivial) ?_ ?_ fun first => ?_
    · simp only [cost]
      omega
    · simp only [stage, BinaryOp.levels] at hlevel ⊢
      omega
    · refine h.ends (.binaryChain level first 0) (fun _ => hlevel) (by simp) ?_
        fun _ _ _ ht => ht.mono (by simp) (by simp)
      simp only [stage, exit]
      omega
  · refine h.ends .unary (fun _ => trivial) (Or.inr ?_) ?_
      fun _ _ _ ht => ht.mono (by simp) (by simp)
    · simp only [cost]
      omega
    · simp only [stage]
      omega

theorem ends_binaryChain (level : Nat) (lhs : Expr) (held : Nat) :
    (binaryChain level lhs held).BodyEnds lexemes n k call call' := by
  intro h
  refine ends_and fun hlevel => ?_
  show Ends _ _ _ (Reader.infixOperator? level >>= _) _
  rw [Reader.infixOperator?_eq]
  refine ends_operator?_bind rfl (fun op => ?_) ?_
  · refine ends_bind Reader.looks_deepen.ends fun _ => ?_
    refine h.ends_then (.binary (level + 1)) (fun _ => trivial) (by simp) ?_ fun rhs => ?_
    · simp only [stage, BinaryOp.levels]
      omega
    · refine h.ends (.binaryChain level (.binary op lhs rhs) (held + 1)) (fun _ => hlevel)
        (by simp) ?_ fun _ _ _ ht => ht.mono (by simp) (by simp)
      have hlevel' : level < BinaryOp.levels := hlevel
      simp only [stage, exit]
      omega
  · refine ends_bind (Reader.looks_release held).ends fun _ => ?_
    exact ends_return (.binaryChain level lhs held) (by simp) (by simp)

theorem ends_unary : unary.BodyEnds lexemes n k call call' := by
  intro h
  refine ends_and fun _ => ?_
  show Ends _ _ _ (Reader.unaryOperator? >>= _) _
  rw [Reader.unaryOperator?_eq]
  refine ends_operator?_bind rfl (fun op => ?_) ?_
  · refine ends_bind Reader.looks_deepen.ends fun _ => ?_
    refine h.ends_then .unary (fun _ => trivial) (by simp) (by simp) fun operand => ?_
    refine ends_bind (Reader.looks_release 1).ends fun _ => ?_
    exact ends_return .unary (by simp) (by simp)
  · exact h.ends .application (fun _ => trivial) (by simp) (by simp)
      fun _ _ _ ht => ht.mono (by simp) (by simp)

/-! ### Applications and properties -/

theorem ends_application : application.BodyEnds lexemes n k call call' := by
  intro h
  refine ends_and fun _ => ?_
  refine h.ends_then .primary (fun _ => trivial) (by simp) (by simp) fun e => ?_
  exact h.ends (.applicationChain e 0) (fun _ => trivial) (by simp)
    (by simp) fun _ _ _ ht => ht.mono (by simp) (by simp)

theorem ends_applicationChain (e : Expr) (held : Nat) :
    (applicationChain e held).BodyEnds lexemes n k call call' := by
  intro h
  refine ends_and fun _ => ?_
  refine ends_accept_bind ?_ ?_
  · refine ends_bind Reader.looks_deepen.ends fun _ => ?_
    refine h.ends_then .arguments (fun _ => trivial) (by simp) (by simp) fun args => ?_
    exact h.ends (.applicationChain (.call e args) (held + 1)) (fun _ => trivial) (by simp)
      (by simp) fun _ _ _ ht => ht.mono (by simp) (by simp)
  · refine h.ends_then (.property e) (fun _ => trivial) (by simp) (by simp)
      fun found => ?_
    cases found with
    | some e' =>
      refine ends_bind Reader.looks_deepen.ends fun _ => ?_
      exact h.ends (.applicationChain e' (held + 1)) (fun _ => trivial) (by simp)
        (by simp) fun _ _ _ ht => ht.mono (by simp) (by simp)
    | none =>
      refine ends_bind (Reader.looks_release held).ends fun _ => ?_
      exact ends_return (.applicationChain e held) (by simp) (by simp)

theorem ends_property (object : Expr) : (property object).BodyEnds lexemes n k call call' := by
  intro h
  refine ends_and fun _ => ?_
  refine ends_accept_bind ?_ ?_
  · refine ends_bind ends_propertyName fun name => ?_
    exact ends_return (.property object) (by simp) (by simp)
  · refine ends_accept_bind ?_ ?_
    · refine h.ends_then .expression (fun _ => trivial) (by simp) (by simp) fun key => ?_
      refine ends_bind (ends_expect .rightBracket .indexClose) fun _ => ?_
      exact ends_return (.property object) (by simp) (by simp)
    · exact ends_return (.property object) (by simp) (by simp)

theorem ends_arguments : arguments.BodyEnds lexemes n k call call' := by
  intro h
  refine ends_and fun _ => ?_
  refine ends_accept_bind ?_ ?_
  · exact ends_return .arguments (by simp) (by simp)
  · exact h.ends .argumentsAfter (fun _ => trivial) (by simp) (by simp)
      fun _ _ _ ht => ht.mono (by simp) (by simp)

theorem ends_argumentsAfter : argumentsAfter.BodyEnds lexemes n k call call' := by
  intro h
  refine ends_and fun _ => ?_
  refine h.ends_then .expression (fun _ => trivial) (by simp) (by simp)
    fun arg => ?_
  refine ends_accept_bind ?_ ?_
  · refine h.ends_then .argumentsAfter (fun _ => trivial) (by simp) (by simp)
      fun _ => ?_
    exact ends_return .argumentsAfter (by simp) (by simp)
  · refine ends_bind (ends_expect .rightParen .argumentsClose) fun _ => ?_
    exact ends_return .argumentsAfter (by simp) (by simp)

/-! ### Primaries and constructions -/

theorem ends_primary : primary.BodyEnds lexemes n k call call' := by
  intro h
  refine ends_and fun _ => ends_consume_bind fun l p => ?_
  rcases l with _ | name | digits | contents | s
  · exact .refuse p _
  · dsimp only
    split_ifs
    · exact .pass (ends_return .primary (by simp) (by simp))
    · exact .pass (ends_return .primary (by simp) (by simp))
    · refine .pass (h.ends .construction (fun _ => trivial) (by simp) (by simp) ?_)
      exact fun _ _ _ ht => ht.mono (by simp) (by simp)
    · exact .refuse p _
    · exact .pass (ends_return .primary (by simp) (by simp))
  · dsimp only
    cases numeralValue? digits.toList with
    | some value =>
      exact .pass (ends_return .primary (by simp) (by simp))
    | none => exact .refuse p _
  · exact .pass (ends_return .primary (by simp) (by simp))
  · cases s with
    | leftParen =>
      refine .pass (h.ends_then .expression (fun _ => trivial) (by simp) (by simp)
        fun e => ?_)
      refine ends_bind (ends_expect .rightParen .groupClose) fun _ => ?_
      exact ends_return .primary (by simp) (by simp)
    | _ => exact .refuse p _

theorem ends_construction : construction.BodyEnds lexemes n k call call' := by
  intro h
  refine ends_and fun _ => ?_
  refine ends_bind Reader.looks_deepen.ends fun _ => ?_
  refine h.ends_then .primary (fun _ => trivial) (by simp) (by simp)
    fun callee => ?_
  exact h.ends (.constructionChain callee 1) (fun _ => trivial) (by simp)
    (by simp) fun _ _ _ ht => ht.mono (by simp) (by simp)

theorem ends_constructionChain (callee : Expr) (held : Nat) :
    (constructionChain callee held).BodyEnds lexemes n k call call' := by
  intro h
  refine ends_and fun _ => ?_
  refine h.ends_then (.property callee) (fun _ => trivial) (by simp) (by simp)
    fun found => ?_
  cases found with
  | some callee' =>
    refine ends_bind Reader.looks_deepen.ends fun _ => ?_
    exact h.ends (.constructionChain callee' (held + 1)) (fun _ => trivial) (by simp)
      (by simp) fun _ _ _ ht => ht.mono (by simp) (by simp)
  | none =>
    refine ends_bind (ends_expect .leftParen .constructorOpen) fun _ => ?_
    refine h.ends_then .arguments (fun _ => trivial) (by simp) (by simp) fun args => ?_
    refine ends_bind (Reader.looks_release held).ends fun _ => ?_
    exact ends_return (.constructionChain callee held) (by simp) (by simp)

/-! ### All routines -/

theorem ends_body (p : Production) : p.BodyEnds lexemes n k call call' := by
  cases p with
  | statements => exact ends_statements _
  | statement => exact ends_statement
  | statementBody => exact ends_statementBody
  | conditionalStatement => exact ends_conditionalStatement
  | branch => exact ends_branch
  | expression => exact ends_expression
  | binary => exact ends_binary _
  | binaryChain => exact ends_binaryChain _ _ _
  | unary => exact ends_unary
  | application => exact ends_application
  | applicationChain => exact ends_applicationChain _ _
  | property => exact ends_property _
  | arguments => exact ends_arguments
  | argumentsAfter => exact ends_argumentsAfter
  | primary => exact ends_primary
  | construction => exact ends_construction
  | constructionChain => exact ends_constructionChain _ _

/-- **Every routine ends in order**, with a journal and without, if both have the allowance. -/
theorem ends_record (n n' : Nat) (p : Production) :
    p.Meets lexemes (min n n') (p.record n) (p.read n') := by
  induction n generalizing n' p with
  | zero =>
    intro k j hallow
    have hcost := p.cost_pos
    omega
  | succ n ih =>
    intro k j hallow hj c events ⟨hready, htracks⟩
    cases n' with
    | zero =>
      have hcost := p.cost_pos
      omega
    | succ n' =>
      rw [record, read_succ, Recorder.outcome_note_bind]
      exact ends_body p ⟨fun q => ih n' q, by omega⟩ ⟨hready, htracks.enters hj⟩

end Production

/-! ## Texts -/

/-- A text is read with a journal, and with more allowance than it is given without. -/
def journal (source : String) (extra : Nat) : Except Halt (List Stmt × Cursor) × List Event :=
  let s := scan source
  ((Production.statements none).record (readingAllowance s.tokens.length + extra)).outcome s.cursor
    []

/-- What a journal tells of a text that was cut into the lexemes. -/
structure Progress (lexemes : List Lexeme) (events : List Event) : Prop where
  /-- A routine is entered again, or a loop goes round, only behind another token. -/
  again {older between newer : List Event} {p q : Production}
    (h : events = older ++ .enters p :: (between ++ .enters q :: newer)) (hpq : p.bare = q.bare) :
    ∃ l, .takes (some l) ∈ between
  /-- Tokens are taken in order, and the end of the text once, if at all, and behind them. -/
  order : taken events <+: lexemes.map some ++ [none]
  /-- Behind the end of the text nothing happens. -/
  last {older newer : List Event} (h : events = older ++ .takes none :: newer) : newer = []
  /-- For each token, and once more, at most as many routines are entered as there are stages. -/
  entries_le : entries events ≤ 35 * (lexemes.length + 1)

/-- The end of the text is none of its tokens. -/
theorem not_prefix_of_takes_none {older newer : List Event} :
    ¬ taken (older ++ .takes none :: newer) <+: lexemes.map some := by
  intro h
  have hmem : none ∈ taken (older ++ .takes none :: newer) := by simp [taken]
  simpa using h.subset hmem

theorem Stopped.progress (h : Stopped lexemes events) : Progress lexemes events := by
  obtain ⟨s, hstage⟩ := h.stage
  have horder : taken events <+: lexemes.map some ++ [none] := by
    rcases h.tokens with hprefix | ⟨before, rfl, hall⟩
    · exact hprefix.trans (List.prefix_append _ _)
    · rw [taken_snoc, hall]
  refine ⟨?again, horder, ?last, ?entries_le⟩
  case again =>
    rintro older between newer p q rfl hpq
    exact exists_takes_of_stageAfter hstage hpq
  case last =>
    rintro older newer rfl
    rcases h.tokens with hprefix | ⟨before, hbefore, hall⟩
    · exact absurd hprefix not_prefix_of_takes_none
    · rcases List.eq_nil_or_concat newer with rfl | ⟨init, e, rfl⟩
      · rfl
      · rw [List.concat_eq_append, ← List.cons_append, ← List.append_assoc] at hbefore
        obtain ⟨rfl, -⟩ := List.append_inj' hbefore rfl
        have hprefix : taken (older ++ .takes none :: init) <+: lexemes.map some := by rw [hall]
        exact absurd hprefix not_prefix_of_takes_none
  case entries_le =>
    obtain ⟨hs, hle⟩ := entries_le_of_stageAfter hstage (Nat.zero_le _)
    have hcount := horder.sublist.countP_le (p := Option.isSome)
    have htokens : (lexemes.map some ++ [none]).countP Option.isSome = lexemes.length := by
      simp [List.countP_eq_length]
    omega

/-- At the end of a text, everything was taken. -/
theorem taken_of_gives {n : Nat} {ss : List Stmt}
    (hgives : (Reader.statements n none).Gives c ss c')
    (h : Tracks lexemes k m j c' events) : taken events = lexemes.map some := by
  have hempty := Cursor.tokens_of_at_none (at_closing_of_gives hgives)
  simpa [hempty] using h.tokens

/-- **Reading makes progress and stops**, whatever the text. No loop goes round and no routine is
entered again without another token; the end of the text is taken only to fail, and last; and the
allowance, which is linear in the number of tokens, suffices, so that more of it changes nothing. -/
theorem parse_progresses (source : String) (extra : Nat) :
    let lexemes := (scan source).tokens.map Token.lexeme
    ∃ outcome events, journal source extra = (outcome, events) ∧ Progress lexemes events ∧
      ((∃ ss c, outcome = .ok (ss, c) ∧ parse source = .ok ss ∧ taken events = lexemes.map some) ∨
        ∃ e, outcome = .error (.fault e) ∧ parse source = .error e) := by
  intro lexemes
  let c := (scan source).cursor
  let n := readingAllowance (scan source).tokens.length
  have htracks : Tracks lexemes c.tokens.length 0 0 c [] := by
    refine ⟨?_, le_rfl, 0, le_rfl, rfl⟩
    simp [taken, lexemes, c, Scan.cursor, Function.comp_def]
  have hallow : (Production.statements none).cost + 20 * c.tokens.length ≤ min (n + extra) n := by
    simp only [Production.cost, n, c, readingAllowance, Scan.cursor]
    omega
  obtain ⟨events, hrun, hgives, herror⟩ := Production.ends_record (n + extra) n (.statements none)
    hallow (by simp) ⟨trivial, htracks⟩
  refine ⟨_, events, hrun, ?_⟩
  unfold parse
  cases hread : (Reader.statements n none).run c with
  | ok r =>
    obtain ⟨ss, c'⟩ := r
    have hend := hgives hread
    refine ⟨hend.stopped.progress, Or.inl ⟨ss, c', hread, ?_, taken_of_gives hread hend⟩⟩
    simp only [n, c] at hread
    simp only [hread]
  | error e =>
    obtain ⟨hne, hstopped⟩ := herror hread
    cases e with
    | exhausted => exact absurd rfl hne
    | fault e =>
      refine ⟨hstopped.progress, Or.inr ⟨e, hread, ?_⟩⟩
      simp only [n, c] at hread
      simp only [hread]

set_option maxRecDepth 4000 in
/-- A group that is not closed: the end of the text is taken behind its only token. -/
theorem parse_progresses_unclosed : ∃ e events,
    journal "(" 0 = (.error (.fault e), events) ∧ parse "(" = .error e ∧
      taken events = [some (.symbol .leftParen), none] ∧ entries events = 33 ∧
      Progress [.symbol .leftParen] events := by
  obtain ⟨outcome, events, hrun, hprogress, houtcome⟩ := parse_progresses "(" 0
  have hlexemes : (scan "(").tokens.map Token.lexeme = [.symbol .leftParen] := by cbv
  have hparse : parse "(" = .error (.grammatical ⟨1, 2⟩ (.noExpression none)) := by cbv
  have htaken : taken (journal "(" 0).2 = [some (.symbol .leftParen), none] := by cbv
  have hentries : entries (journal "(" 0).2 = 33 := by cbv
  rw [hrun] at htaken hentries
  rw [hlexemes] at hprogress
  rcases houtcome with ⟨ss, c, -, hss, -⟩ | ⟨e, rfl, he⟩
  · cases hparse.symm.trans hss
  · exact ⟨e, events, hrun, he, htaken, hentries, hprogress⟩

end Isa16
