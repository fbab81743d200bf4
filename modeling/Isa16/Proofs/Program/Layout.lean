import Isa16.Proofs.Program.Joining

/-!
# Texts of statements

* `Spells`: a text of an expression that does not end inside a comment.
* `Writes`, `Joins`: the texts of a statement, and of statements one after another with separators
  where they are needed.
* `spells_of_yields`: a text without comments spells what its lexemes derive.
* `Parses.braced`: statements are read through a brace as they are through the end.
* `Stmt.IsRead`, `Joins.areRead`, `Writes.isRead`: such texts are cut, and their lexemes are read.
* **`parse_joined`**: what is written is read back, unless it is nested too deeply. Statements that
  are read alone are read together, however many they are.
-/

namespace Isa16

/-! ## Texts -/

/-- The text spells the expression and does not end inside a comment. -/
def Spells (text : String) (e : Expr) : Prop :=
  ∃ w, Cuts false text.toList w false ∧ Derives (.expression e) w

/-- Separators and blanks. -/
def IsGap (gap : String) : Prop :=
  ∀ c ∈ gap.toList, c = ';' ∨ isBlank c = true

/-- Texts of statements one after another, each with a gap behind it. There is a separator in the
gap behind a statement that is neither the last nor a conditional. -/
inductive Joins : List (Stmt × String) → String → Prop
  | nil : Joins [] ""
  | cons {s : Stmt} {t gap text : String} {parts : List (Stmt × String)} (hgap : IsGap gap)
    (hsep : parts = [] ∨ s.isConditional = true ∨ ';' ∈ gap.toList) (h : Joins parts text) :
    Joins ((s, t) :: parts) (t ++ gap ++ text)

/-- The texts of a statement. -/
inductive Writes : Stmt → String → Prop
  | expr {e : Expr} {t : String} (h : Spells t e) : Writes (.expr e) t
  | assign {target value : Expr} {t u : String} (ht : Spells t target) (hu : Spells u value) :
    Writes (.assign target value) (t ++ " = " ++ u)
  | ifOnly {condition : Expr} {t body : String} {parts : List (Stmt × String)}
    (hc : Spells t condition) (hparts : ∀ p ∈ parts, Writes p.1 p.2) (hbody : Joins parts body) :
    Writes (.ite condition (parts.map Prod.fst) []) ("if (" ++ t ++ ") \x7b " ++ body ++ " \x7d")
  | ifElse {condition : Expr} {t body other : String} {parts others : List (Stmt × String)}
    (hc : Spells t condition) (hparts : ∀ p ∈ parts, Writes p.1 p.2) (hbody : Joins parts body)
    (hothers : ∀ p ∈ others, Writes p.1 p.2) (hother : Joins others other) :
    Writes (.ite condition (parts.map Prod.fst) (others.map Prod.fst))
      ("if (" ++ t ++ ") \x7b " ++ body ++ " \x7d else \x7b " ++ other ++ " \x7d")

/-! ## Comments -/

section

variable {cs ds rest : List Char} {c : Char} {l : Lexeme} {ls ls' : List Lexeme} {b o o' : Bool}

theorem openAfter_eq_false (h : ¬ ['/', '/'] <:+: cs) : openAfter false cs = false := by
  induction cs with
  | nil => rfl
  | cons c cs ih =>
    have hslash : ¬ (c = '/' ∧ cs.head? = some '/') := by
      rintro ⟨rfl, hcs⟩
      obtain ⟨cs, rfl⟩ := List.head?_eq_some_iff.mp hcs
      exact h ⟨[], cs, rfl⟩
    rw [openAfter, if_neg Bool.false_ne_true, decide_eq_false hslash]
    exact ih fun hcs => h (hcs.trans (List.suffix_cons c cs).isInfix)

theorem rest_suffix_of_readPiece {tail span : List Char}
    (hgap : (splitGap b cs).2 = c :: tail) (hread : readPiece c tail = .ok ⟨l, span, rest⟩) :
    rest <:+ cs := by
  have hsplit := splitGap_append b cs
  rw [hgap, ← readPiece_append hread, ← List.append_assoc] at hsplit
  exact ⟨_, hsplit⟩

theorem Cuts.ends_outside (h : Cuts b cs ls o) (hb : b = false) (hcs : ¬ ['/', '/'] <:+: cs) :
    o = false := by
  induction h with
  | gap =>
    subst hb
    exact openAfter_eq_false hcs
  | piece hgap hread _ ih =>
    exact ih rfl fun hrest => hcs (hrest.trans (rest_suffix_of_readPiece hgap hread).isInfix)

theorem spells_of_yields {text : String} {e : Expr} (hy : (scan text).Yields ls)
    (h : Derives (.expression e) ls) (htext : ¬ ['/', '/'] <:+: text.toList) : Spells text e := by
  obtain ⟨o, hcuts⟩ := cuts_of_yields hy
  obtain rfl := hcuts.ends_outside rfl htext
  exact ⟨ls, hcuts, h⟩

/-! ## Cutting -/

theorem border_of_isBlank (hc : isBlank c = true) : Border c := by
  have hne : ∀ d, isBlank d = false → c ≠ d := by
    rintro d hd rfl
    rw [hc] at hd
    cases hd
  refine ⟨?_, fun d => Option.eq_none_iff_forall_ne_some.mpr fun s hs => ?_, hne _ (by decide)⟩
  · by_contra hpart
    rw [Bool.not_eq_false, isNamePart, Bool.or_eq_true] at hpart
    rcases hpart with hstart | hdigit
    · rw [isBlank_of_isNameStart hstart] at hc
      cases hc
    · rw [isBlank_of_isDigit hdigit] at hc
      cases hc
  · have hmem := mem_of_ofPair? hs
    simp only [List.mem_cons, List.not_mem_nil, or_false] at hmem
    rcases hmem with rfl | rfl | rfl | rfl | rfl <;> exact absurd hc (by decide)

/-- The text, if there is one, begins with a border. -/
def Bordered (cs : List Char) : Prop :=
  ∀ c ∈ cs.head?, Border c

theorem Cuts.append_bordered (h : Cuts false cs ls false) (hds : Bordered ds)
    (h' : Cuts false ds ls' o) : Cuts false (cs ++ ds) (ls ++ ls') o := by
  cases ds with
  | nil =>
    obtain ⟨rfl, rfl⟩ : ls' = [] ∧ o = false := by
      cases h' with
      | gap => exact ⟨rfl, rfl⟩
      | piece hgap => cases hgap
    rwa [List.append_nil, List.append_nil]
  | cons d ds => exact h.append (hds d rfl) h'

theorem bordered_space (cs : List Char) : Bordered (' ' :: cs) := by
  rintro c ⟨⟩
  exact border_of_mem (by decide)

theorem bordered_gap {gap : String} (hgap : IsGap gap) (hne : gap.toList ≠ [] ∨ cs = []) :
    Bordered (gap.toList ++ cs) := by
  cases hg : gap.toList with
  | nil =>
    obtain rfl := hne.resolve_left fun h => h hg
    exact fun c hc => by cases hc
  | cons d ds =>
    rintro c ⟨⟩
    rcases hgap d (hg ▸ List.mem_cons_self) with rfl | hblank
    · exact border_of_mem (by decide)
    · exact border_of_isBlank hblank

theorem cuts_gap {gap : List Char} (hgap : ∀ c ∈ gap, c = ';' ∨ isBlank c = true)
    (h : Cuts false cs ls o) :
    Cuts false (gap ++ cs) (List.replicate (gap.count ';') semicolon ++ ls) o := by
  induction gap with
  | nil => exact h
  | cons c gap ih =>
    obtain ⟨hc, hrest⟩ := List.forall_mem_cons.mp hgap
    by_cases hsemi : c = ';'
    · subst hsemi
      rw [List.count_cons_self, List.replicate_succ]
      exact cuts_symbol rfl (fun _ => rfl) (by decide) (ih hrest)
    · rw [List.count_cons_of_ne hsemi]
      exact cuts_blank (hc.resolve_left hsemi) (ih hrest)

theorem cuts_rightBrace (h : Cuts false cs ls o) :
    Cuts false ('\x7d' :: cs) (.symbol .rightBrace :: ls) o :=
  cuts_symbol rfl (fun _ => rfl) (by decide) h

/-- A block in front of more lexemes. -/
def blockLexemes (ls rest : List Lexeme) : List Lexeme :=
  .symbol .leftBrace :: (ls ++ .symbol .rightBrace :: rest)

/-- A condition in front of more lexemes. -/
def conditionLexemes (ls rest : List Lexeme) : List Lexeme :=
  .identifier "if" :: .symbol .leftParen :: (ls ++ .symbol .rightParen :: rest)

theorem cuts_block (h : Cuts false cs ls false) (h' : Cuts false ds ls' o) :
    Cuts false (' ' :: '\x7b' :: ' ' :: (cs ++ ' ' :: '\x7d' :: ds)) (blockLexemes ls ls') o :=
  cuts_space (cuts_symbol rfl (fun _ => rfl) (by decide) (cuts_space
    (h.append_bordered (bordered_space _) (cuts_space (cuts_rightBrace h')))))

theorem cuts_word (name : String) (hname : isIdentifier name = true) (hcs : Bordered cs)
    (h : Cuts false cs ls o) : Cuts false (name.toList ++ cs) (.identifier name :: ls) o := by
  have hword : Cuts false name.toList [.identifier name] false :=
    cuts_of_isPlain (l := .identifier name) (isPlain_of_isIdentifier hname)
  exact hword.append_bordered hcs h

theorem cuts_condition (h : Cuts false cs ls false) (h' : Cuts false ds ls' o) :
    Cuts false ("if".toList ++ ' ' :: '(' :: (cs ++ ')' :: ds)) (conditionLexemes ls ls') o :=
  cuts_word "if" (by decide) (bordered_space _) (cuts_space (cuts_leftParen
    (h.append (border_of_mem (by decide)) (cuts_symbol rfl (fun _ => rfl) (by decide) h'))))

end

/-! ## Reading -/

section

variable {φ : Phrase} {s : Stmt} {ss ss' : List Stmt} {m n : Nat} {u v x : List Lexeme}
  {ls ls' w : List Lexeme}

theorem Parses.statement_ne_rightBrace (h : Parses (.statement s) m u v) :
    u.head? ≠ some (.symbol .rightBrace) := by
  cases h with
  | statement h =>
    cases h with
    | conditionalBody => simp
    | assignmentBody _ h | expressionBody _ h =>
      obtain ⟨l, w, rfl, hl⟩ := h.opens
      rintro ⟨⟩
      simp [Lexeme.Opens, UnaryOp.ofSymbol?] at hl

/-- **Statements are read through a brace** as they are through the end. -/
theorem Parses.braced (h : Parses φ m u v) (hφ : φ = .statements none ss) (hv : v = [])
    (x : List Lexeme) : Parses (.statements (some .rightBrace) ss) m
      (u ++ .symbol .rightBrace :: x) (.symbol .rightBrace :: x) := by
  induction h generalizing ss with
  | statementsEnd h =>
    cases hφ
    subst hv
    exact .statementsEnd rfl
  | statementsSkip _ _ ih =>
    cases hφ
    exact .statementsSkip (by simp) (ih rfl hv)
  | @statementsCons _ s ss _ k u u₁ u₂ _ _ hsemi hs hsep _ _ ih =>
    cases hφ
    have hs' : Parses (.statement s) _ (u ++ .symbol .rightBrace :: x)
        (u₁ ++ .symbol .rightBrace :: x) :=
      hs.append fun _ => ⟨by simp, Or.inr ⟨stops_cons rfl (by decide) 0 x, by simp, by simp⟩⟩
    have hsep' : Separated (some .rightBrace) s (u₁ ++ .symbol .rightBrace :: x)
        (u₂ ++ .symbol .rightBrace :: x) := by
      cases hsep with
      | conditional hcond => exact .conditional hcond
      | closed hcond hnone =>
        obtain rfl : u₁ = [] := List.head?_eq_none_iff.mp hnone
        exact .closed hcond rfl
      | semicolon hcond => exact .semicolon hcond (by simp)
    refine .statementsCons ?_ ?_ hs' hsep' (ih rfl hv)
    · rw [hs.head?_append rfl]
      exact hs.statement_ne_rightBrace
    · rwa [hs.head?_append rfl]
  | _ => cases hφ

theorem Parses.block_of_statements (h : Parses (.statements none ss) m u []) (x : List Lexeme) :
    Parses (.branch ss) m (blockLexemes u x) x :=
  .block (h.braced rfl rfl x)

theorem parses_conditional_alone (hs : s.isConditional = true)
    (h : Parses (.conditionalStatement s) m (.identifier "if" :: u) []) :
    Parses (.statements none [s]) (1 + m) (.identifier "if" :: u) [] :=
  (Parses.statementsCons (by simp) (by simp) (.statement (.conditionalBody h)) (.conditional hs)
    (.statementsEnd rfl)).of_eq (Nat.max_zero _)

theorem Parses.trailing (h : Parses (.statements none ss) m u []) (j : Nat) :
    Parses (.statements none ss) m (u ++ List.replicate j semicolon) [] := by
  cases j with
  | zero => rwa [List.replicate_zero, List.append_nil]
  | succ j =>
    have hjoined := h.join rfl rfl (parses_replicate (j + 1)) (Or.inl rfl)
    rwa [List.append_nil, Nat.max_zero] at hjoined

end

/-! ## What is written is read -/

/-- The lexemes make up the text of the statement, in front of what it may be followed by, and are
read as the statement with levels that are allowed. -/
structure Stmt.IsRead (allowed : Nat → Prop) (s : Stmt) (text : String) (ls : List Lexeme) :
    Prop where
  cuts : ∀ {cs ls' o}, s.isConditional = true ∨ Bordered cs → Cuts false cs ls' o →
    Cuts false (text.toList ++ cs) (ls ++ ls') o
  closed : s.isConditional = true → Closed ls
  parses : ∃ m, allowed m ∧ Parses (.statements none [s]) m ls []

section

variable {allowed : Nat → Prop} {s : Stmt} {t body other text : String} {ls lc lb lo : List Lexeme}
  {parts : List (Stmt × String)}

theorem Stmt.IsRead.cuts_self (h : s.IsRead allowed t ls) : Cuts false t.toList ls false := by
  have hcuts := h.cuts (Or.inr fun c hc => by cases hc) cuts_nil
  rwa [List.append_nil, List.append_nil] at hcuts

/-- Statements one after another are read if each is. No more levels are needed. -/
theorem Joins.areRead (h : Joins parts text)
    (hparts : ∀ p ∈ parts, ∃ ls, p.1.IsRead allowed p.2 ls) (hzero : allowed 0) :
    ∃ ls, Cuts false text.toList ls false ∧
      ∃ m, allowed m ∧ Parses (.statements none (parts.map Prod.fst)) m ls [] := by
  induction h with
  | nil => exact ⟨[], cuts_nil, 0, hzero, .statementsEnd rfl⟩
  | @cons s t gap text parts hgap hsep h ih =>
    obtain ⟨⟨ls, hs⟩, hrest⟩ := List.forall_mem_cons.mp hparts
    obtain ⟨ls', hcuts', n, hn, hparses'⟩ := ih hrest
    obtain ⟨m, hm, hparses⟩ := hs.parses
    have hborder : s.isConditional = true ∨ Bordered (gap.toList ++ text.toList) := by
      rcases hsep with rfl | hcond | hsemi
      · cases h
        exact Or.inr (bordered_gap hgap (Or.inr rfl))
      · exact Or.inl hcond
      · exact Or.inr (bordered_gap hgap (Or.inl (List.ne_nil_of_mem hsemi)))
    have hcuts := hs.cuts hborder (cuts_gap hgap hcuts')
    rw [← List.append_assoc, ← String.toList_append, ← String.toList_append] at hcuts
    refine ⟨_, hcuts, ?_⟩
    by_cases hnil : parts = []
    · subst hnil
      obtain ⟨j, rfl⟩ := exists_eq_replicate hparses' rfl rfl
      rw [List.replicate_append_replicate]
      exact ⟨m, hm, hparses.trailing _⟩
    · have hend : (List.replicate (gap.toList.count ';') semicolon ++ ls').head? = some semicolon ∨
          Closed ls := by
        rcases hsep.resolve_left hnil with hcond | hsemi
        · exact Or.inr (hs.closed hcond)
        · obtain ⟨k, hk⟩ := Nat.exists_eq_succ_of_ne_zero (List.count_pos_iff.mpr hsemi).ne'
          rw [hk]
          exact Or.inl rfl
      have hmax : allowed (max m n) := by
        rcases max_choice m n with h | h <;> rw [h] <;> assumption
      exact ⟨_, hmax, hparses.join rfl rfl (parses_replicate_append hparses' _) hend⟩

theorem closed_conditionLexemes {rest : List Lexeme} (h : Closed rest) (hne : rest ≠ []) :
    Closed (conditionLexemes lc rest) :=
  (closed_iff_of_suffix ⟨.identifier "if" :: .symbol .leftParen :: (lc ++ [.symbol .rightParen]),
    by simp [conditionLexemes]⟩ hne).mp h

theorem closed_blockLexemes {rest : List Lexeme} (h : Closed rest) :
    Closed (blockLexemes lb rest) :=
  (closed_iff_of_suffix ⟨.symbol .leftBrace :: lb, rfl⟩ (List.cons_ne_nil _ _)).mp
    (h.cons (Or.inr rfl))

theorem isRead_expr {e : Expr} (h : Spells t e) :
    ∃ ls, (Stmt.expr e).IsRead (fun _ => True) t ls := by
  obtain ⟨w, hcuts, hw⟩ := h
  obtain ⟨m, hm⟩ := parses_of_derives hw 0 0
  rw [List.replicate_zero, List.nil_append, List.append_nil] at hm
  exact ⟨w, fun hend => hcuts.append_bordered (hend.resolve_left Bool.false_ne_true),
    fun hcond => absurd hcond Bool.false_ne_true, m, trivial, hm⟩

theorem isRead_assign {target value : Expr} {u : String} (ht : Spells t target)
    (hu : Spells u value) :
    ∃ ls, (Stmt.assign target value).IsRead (fun _ => True) (t ++ " = " ++ u) ls := by
  obtain ⟨w, hcuts, hw⟩ := ht
  obtain ⟨w', hcuts', hw'⟩ := hu
  obtain ⟨m, hm⟩ := reads_of_derives hw (.symbol .equals :: w')
    (stops_cons rfl (by decide) 0 _) (by simp)
  obtain ⟨n, hn⟩ := reads_of_derives hw' [] (stops_none 0) (by simp)
  obtain ⟨l, v, rfl, hl⟩ := hw.front
  obtain ⟨-, hsemi, hif⟩ := hl.ne
  rw [List.append_nil] at hn
  have hstatement : Parses (.statement (.assign target value)) _ _ [] :=
    .statement (.assignmentBody (by simpa using hif) hm hn)
  have hparses := parses_statement (j := 0) rfl (by simp) (by simpa using hsemi) hstatement
  refine ⟨l :: v ++ .symbol .equals :: w', fun {cs ls' o} hend hrest => ?_,
    fun hcond => absurd hcond Bool.false_ne_true, _, trivial, hparses⟩
  have hvalue := hcuts'.append_bordered (hend.resolve_left Bool.false_ne_true) hrest
  have hequals : Cuts false ('=' :: ' ' :: _) _ _ :=
    cuts_cons (by decide) (by simp) rfl (cuts_space hvalue)
  have htext := hcuts.append_bordered (bordered_space _) (cuts_space hequals)
  simpa using htext

theorem isRead_ifOnly {c : Expr} {ss : List Stmt} (hc : Spells t c)
    (hcuts : Cuts false body.toList lb false)
    (hbody : ∃ m, Parses (.statements none ss) m lb []) :
    ∃ ls, (Stmt.ite c ss []).IsRead (fun _ => True)
      ("if (" ++ t ++ ") \x7b " ++ body ++ " \x7d") ls := by
  obtain ⟨lc, hcondition, hderives⟩ := hc
  obtain ⟨n, hbody⟩ := hbody
  obtain ⟨m, hm⟩ := reads_of_derives hderives (.symbol .rightParen :: blockLexemes lb [])
    (stops_rightParen 0 _) (by simp)
  have hconditional : Parses (.conditionalStatement (.ite c ss [])) (max m n)
      (conditionLexemes lc (blockLexemes lb [])) [] :=
    .ifOnly hm (hbody.block_of_statements []) (by simp)
  refine ⟨conditionLexemes lc (blockLexemes lb []), fun {cs ls' o} _ hrest => ?_,
    fun _ => closed_conditionLexemes (closed_blockLexemes closed_nil) (List.cons_ne_nil _ _),
    _, trivial, parses_conditional_alone rfl hconditional⟩
  have htext := cuts_condition hcondition (cuts_block hcuts hrest)
  simpa [conditionLexemes, blockLexemes] using htext

theorem isRead_ifElse {c : Expr} {ss ss' : List Stmt} (hc : Spells t c)
    (hcuts : Cuts false body.toList lb false)
    (hbody : ∃ m, Parses (.statements none ss) m lb [])
    (hcuts' : Cuts false other.toList lo false)
    (hother : ∃ m, Parses (.statements none ss') m lo []) :
    ∃ ls, (Stmt.ite c ss ss').IsRead (fun _ => True)
      ("if (" ++ t ++ ") \x7b " ++ body ++ " \x7d else \x7b " ++ other ++ " \x7d") ls := by
  obtain ⟨lc, hcondition, hderives⟩ := hc
  obtain ⟨n, hbody⟩ := hbody
  obtain ⟨k, hother⟩ := hother
  have helse : Closed (.identifier "else" :: blockLexemes lo []) :=
    (closed_iff_of_suffix (List.suffix_cons _ _) (List.cons_ne_nil _ _)).mp
      (closed_blockLexemes closed_nil)
  obtain ⟨m, hm⟩ := reads_of_derives hderives
    (.symbol .rightParen :: blockLexemes lb (.identifier "else" :: blockLexemes lo []))
    (stops_rightParen 0 _) (by simp)
  have hconditional : Parses (.conditionalStatement (.ite c ss ss')) (max m (max n k))
      (conditionLexemes lc (blockLexemes lb (.identifier "else" :: blockLexemes lo []))) [] :=
    .ifElse hm (hbody.block_of_statements _) (hother.block_of_statements [])
  refine ⟨conditionLexemes lc (blockLexemes lb (.identifier "else" :: blockLexemes lo [])),
    fun {cs ls' o} _ hrest => ?_,
    fun _ => closed_conditionLexemes (closed_blockLexemes helse) (List.cons_ne_nil _ _),
    _, trivial, parses_conditional_alone rfl hconditional⟩
  have htext := cuts_condition hcondition (cuts_block hcuts
    (cuts_space (cuts_word "else" (by decide) (bordered_space _) (cuts_block hcuts' hrest))))
  simpa [conditionLexemes, blockLexemes] using htext

/-- **The text of a statement is read as the statement.** -/
theorem Writes.isRead (h : Writes s t) : ∃ ls, s.IsRead (fun _ => True) t ls := by
  induction h with
  | expr h => exact isRead_expr h
  | assign ht hu => exact isRead_assign ht hu
  | ifOnly hc _ hbody ih =>
    obtain ⟨lb, hcuts, m, -, hparses⟩ := hbody.areRead ih trivial
    exact isRead_ifOnly hc hcuts ⟨m, hparses⟩
  | ifElse hc _ hbody _ hother ih iho =>
    obtain ⟨lb, hcuts, m, -, hparses⟩ := hbody.areRead ih trivial
    obtain ⟨lo, hcuts', n, -, hparses'⟩ := hother.areRead iho trivial
    exact isRead_ifElse hc hcuts ⟨m, hparses⟩ hcuts' ⟨n, hparses'⟩

/-- A statement that is read alone needs no more levels than there are. -/
theorem Stmt.IsRead.of_parse (h : s.IsRead allowed t ls) {ss : List Stmt}
    (hparse : parse t = .ok ss) : s.IsRead (· ≤ maxNesting) t ls := by
  obtain ⟨ls', o, hcuts, m, hm, hparses⟩ := parse_eq_ok_iff_cuts.mp hparse
  obtain rfl := h.cuts_self.lexemes_unique hcuts
  obtain ⟨n, -, hparses'⟩ := h.parses
  obtain ⟨-, rfl, -⟩ := hparses'.unique hparses rfl
  exact ⟨h.cuts, h.closed, n, hm, hparses'⟩

end

/-- **What is written is read back**, every statement in its own place and in its own branch, unless
it is nested too deeply. Statements that are read alone are read together. -/
theorem parse_joined {parts : List (Stmt × String)} {text : String}
    (hparts : ∀ p ∈ parts, Writes p.1 p.2) (h : Joins parts text) :
    (parse text = .ok (parts.map Prod.fst) ∨
      ∃ p, parse text = .error (.grammatical p .nestedTooDeeply)) ∧
    ((∀ p ∈ parts, ∃ ss, parse p.2 = .ok ss) → parse text = .ok (parts.map Prod.fst)) := by
  constructor
  · obtain ⟨ls, hcuts, m, -, hparses⟩ := h.areRead (fun p hp => (hparts p hp).isRead) trivial
    exact parse_eq_ok_or_error (yields_of_cuts hcuts rfl .start) hparses
  · intro halone
    have hread : ∀ p ∈ parts, ∃ ls, p.1.IsRead (· ≤ maxNesting) p.2 ls := by
      intro p hp
      obtain ⟨ls, hls⟩ := (hparts p hp).isRead
      obtain ⟨ss, hss⟩ := halone p hp
      exact ⟨ls, hls.of_parse hss⟩
    obtain ⟨ls, hcuts, m, hm, hparses⟩ := h.areRead hread (Nat.zero_le _)
    exact parse_eq_ok_iff_cuts.mpr ⟨ls, false, hcuts, m, hm, hparses⟩

theorem spells_name {name : String} (hname : isIdentifier name = true)
    (hk : isKeyword name = false) : Spells name (.ident name) := by
  have hparses : Parses (.expression (.ident name)) 1 [.identifier name] [] :=
    parses_expression_of_unary (parses_unary_of_primary (.ident hk) rfl (stops_none 0))
      (stops_none 0) (by simp)
  obtain ⟨w, hw, hderives⟩ := derives_of_parses hparses
  rw [List.append_nil] at hw
  exact ⟨w, hw ▸ cuts_of_isPlain (l := .identifier name) (isPlain_of_isIdentifier hname), hderives⟩

/-- A conditional inside another, and statements with more separators than are needed. -/
theorem parse_joined_nested :
    let x : Stmt := .assign (.ident "x") (.ident "y")
    let inner : Stmt := .ite (.ident "b") [x] []
    let outer : Stmt := .ite (.ident "a") [inner, .expr (.ident "z")] []
    let innerText :=
      "if (" ++ "b" ++ ") \x7b " ++ ("x = y" ++ "" ++ "") ++ " \x7d else \x7b " ++ "" ++ " \x7d"
    let outerText :=
      "if (" ++ "a" ++ ") \x7b " ++ (innerText ++ " " ++ ("z" ++ ";;" ++ "")) ++ " \x7d"
    parse (outerText ++ "" ++ ("w" ++ ";\n" ++ ("v" ++ "" ++ ""))) =
      .ok [outer, .expr (.ident "w"), .expr (.ident "v")] := by
  intro x inner outer innerText outerText
  have hempty : IsGap "" := by simp [IsGap]
  have hspace : IsGap " " := by simp [IsGap, isBlank, blankRanges]
  have hsemi : IsGap ";;" := by simp [IsGap]
  have hline : IsGap ";\n" := by simp [IsGap, isBlank, blankRanges]
  have hname : ∀ name, isIdentifier name = true → isKeyword name = false →
      Writes (.expr (.ident name)) name := fun name h hk => .expr (spells_name h hk)
  have hassign : Writes x "x = y" :=
    .assign (spells_name (by decide) rfl) (spells_name (by decide) rfl)
  have hbody : ∀ p ∈ [(x, "x = y")], Writes p.1 p.2 := by simpa using hassign
  have hother : ∀ p ∈ ([] : List (Stmt × String)), Writes p.1 p.2 := by simp
  have hinner : Writes inner innerText :=
    .ifElse (spells_name (by decide) rfl) hbody (.cons hempty (Or.inl rfl) .nil) hother .nil
  have hparts : ∀ p ∈ [(inner, innerText), (.expr (.ident "z"), "z")], Writes p.1 p.2 := by
    simpa using ⟨hinner, hname "z" (by decide) rfl⟩
  have houter : Writes outer outerText :=
    .ifOnly (spells_name (by decide) rfl) hparts
      (.cons hspace (Or.inr (Or.inl rfl)) (.cons hsemi (Or.inl rfl) .nil))
  have hjoins : Joins [(outer, outerText), (.expr (.ident "w"), "w"), (.expr (.ident "v"), "v")]
      (outerText ++ "" ++ ("w" ++ ";\n" ++ ("v" ++ "" ++ ""))) :=
    .cons hempty (Or.inr (Or.inl rfl)) (.cons hline (Or.inr (Or.inr (by simp)))
      (.cons hempty (Or.inl rfl) .nil))
  refine (parse_joined ?_ hjoins).2 ?_
  · simpa using ⟨houter, hname "w" (by decide) rfl, hname "v" (by decide) rfl⟩
  · simp only [List.forall_mem_cons, List.not_mem_nil, false_imp_iff, implies_true, and_true]
    exact ⟨⟨_, by cbv⟩, ⟨_, by cbv⟩, ⟨_, by cbv⟩⟩

end Isa16
