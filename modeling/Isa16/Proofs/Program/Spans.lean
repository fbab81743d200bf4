import Isa16.Proofs.Program.Lexing

/-!
# Where tokens stand in a text

* `Position.behind`: the place behind a text, by counting. `after_behind`: this is the place that is
  kept while a text is scanned.
* `Ignorable`: blanks and comments. `ignorable_splitGap`: nothing else is left out between tokens.
* `Lexeme.SpannedBy`: the characters that a lexeme is read from. `Unquoted`: the characters between
  the quotes of a string literal.
* `Accounted`: the tokens of a text, each with its place, and what stands between them.
* **`accounted_scan`**: scanning accounts for every character of a text.
-/

namespace Isa16

/-! ## Places -/

/-- The place behind a text: one line more than there are ends of lines, and one column more than
there are characters behind the last of them. -/
def Position.behind (text : List Char) : Position :=
  ⟨1 + text.count '\n', 1 + (text.reverse.takeWhile (· ≠ '\n')).length⟩

theorem Position.next_behind (text : List Char) (c : Char) :
    (behind text).next c = behind (text ++ [c]) := by
  unfold next behind
  by_cases hc : c = '\n'
  · subst hc
    simp [Nat.add_assoc]
  · simp [hc, Nat.add_assoc, Nat.add_comm 1]

theorem Position.after_behind (text cs : List Char) :
    (behind text).after cs = behind (text ++ cs) := by
  induction cs generalizing text with
  | nil => rw [after_nil, List.append_nil]
  | cons c cs ih =>
    calc (behind text).after (c :: cs)
        = ((behind text).next c).after cs := rfl
      _ = behind (text ++ [c] ++ cs) := by rw [next_behind, ih]
      _ = behind (text ++ c :: cs) := by rw [List.append_assoc, List.singleton_append]

theorem Position.start_eq : start = behind [] := rfl

/-! ## Gaps -/

/-- Blanks and comments in front of a text. A comment goes from `//` to the end of its line, or to
the end of the whole text. -/
inductive Ignorable (rest : List Char) : List Char → Prop
  | nil : Ignorable rest []
  | blank {c : Char} {gap : List Char} (hc : isBlank c = true) (h : Ignorable rest gap) :
    Ignorable rest (c :: gap)
  | comment {body gap : List Char} (hbody : '\n' ∉ body) (h : Ignorable rest gap) :
    Ignorable rest ('/' :: '/' :: (body ++ '\n' :: gap))
  | lastComment {body : List Char} (hbody : '\n' ∉ body) (hrest : rest = []) :
    Ignorable rest ('/' :: '/' :: body)

theorem splitGap_true (cs : List Char) :
    ('\n' ∉ cs ∧ splitGap true cs = (cs, [])) ∨
      ∃ body tail, '\n' ∉ body ∧ cs = body ++ '\n' :: tail ∧
        splitGap true cs = (body ++ '\n' :: (splitGap false tail).1, (splitGap false tail).2) := by
  induction cs with
  | nil => exact Or.inl ⟨by simp, rfl⟩
  | cons c cs ih =>
    by_cases hc : c = '\n'
    · subst hc
      exact Or.inr ⟨[], cs, by simp, rfl, by simp [splitGap]⟩
    · have hstep : splitGap true (c :: cs) =
          (c :: (splitGap true cs).1, (splitGap true cs).2) := by simp [splitGap, hc]
      rcases ih with ⟨hcs, hsplit⟩ | ⟨body, tail, hbody, rfl, hsplit⟩
      · exact Or.inl ⟨by simp [hcs, Ne.symm hc], by rw [hstep, hsplit]⟩
      · exact Or.inr ⟨c :: body, tail, by simp [hbody, Ne.symm hc], rfl, by rw [hstep, hsplit]; rfl⟩

/-- **Nothing but blanks and comments is left out.** -/
theorem ignorable_splitGap (cs : List Char) :
    Ignorable (splitGap false cs).2 (splitGap false cs).1 := by
  -- A comment is left as a whole, so the induction is on the length.
  induction hn : cs.length using Nat.strong_induction_on generalizing cs with
  | _ n ih =>
    subst hn
    rcases cs with _ | ⟨c, cs⟩
    · exact .nil
    by_cases hslash : c = '/' ∧ cs.head? = some '/'
    · obtain ⟨rfl, hhead⟩ := hslash
      obtain ⟨cs, rfl⟩ := List.head?_eq_some_iff.mp hhead
      have hsplit : splitGap false ('/' :: '/' :: cs) =
          ('/' :: '/' :: (splitGap true cs).1, (splitGap true cs).2) := by simp [splitGap]
      rw [hsplit]
      rcases splitGap_true cs with ⟨hcs, heq⟩ | ⟨body, tail, hbody, rfl, heq⟩
      · rw [heq]
        exact .lastComment hcs rfl
      · rw [heq]
        exact .comment hbody (ih tail.length (by simp; omega) tail rfl)
    by_cases hblank : isBlank c = true
    · have hsplit : splitGap false (c :: cs) =
          (c :: (splitGap false cs).1, (splitGap false cs).2) := by simp [splitGap, hslash, hblank]
      rw [hsplit]
      exact .blank hblank (ih cs.length (by simp) cs rfl)
    · rw [splitGap_false_of_front (by simpa using hblank) hslash]
      exact .nil

/-! ## Spans -/

/-- The characters between two quotes of this kind: a quote stands among them only behind a
backslash that does not itself stand behind one, and so does the end of a line. -/
inductive Unquoted (quote : Char) : List Char → Prop
  | nil : Unquoted quote []
  | plain {c : Char} {cs : List Char} (hslash : c ≠ '\\') (hline : c ≠ '\n') (hquote : c ≠ quote)
    (h : Unquoted quote cs) : Unquoted quote (c :: cs)
  | escape {c : Char} {cs : List Char} (h : Unquoted quote cs) : Unquoted quote ('\\' :: c :: cs)

/-- The characters that a lexeme is read from: a string literal from its opening quote to the
matching one, all else as it is shown. -/
inductive Lexeme.SpannedBy : Lexeme → List Char → Prop
  | text {contents : String} {quote : Char} {body : List Char} (hquote : quote = '"' ∨ quote = '\'')
    (h : Unquoted quote body) : SpannedBy (.text contents) (quote :: (body ++ [quote]))
  | shown {l : Lexeme} (h : ∀ contents, l ≠ .text contents) : SpannedBy l l.shown.toList

section

variable {quote c : Char} {cs span rest contents : List Char}

theorem Unquoted.append (hcs : ∀ c ∈ cs, c ≠ '\\' ∧ c ≠ '\n' ∧ c ≠ quote)
    {ds : List Char} (h : Unquoted quote ds) : Unquoted quote (cs ++ ds) := by
  induction cs with
  | nil => exact h
  | cons c cs ih =>
    obtain ⟨⟨hslash, hline, hc⟩, hcs⟩ := List.forall_mem_cons.mp hcs
    exact .plain hslash hline hc (ih hcs)

theorem ne_of_isHexDigit (hquote : quote = '"' ∨ quote = '\'') (h : isHexDigit c = true) :
    c ≠ '\\' ∧ c ≠ '\n' ∧ c ≠ quote := by
  refine ⟨?_, ?_, ?_⟩
  · rintro rfl
    cases h
  · rintro rfl
    cases h
  · rcases hquote with rfl | rfl <;> rintro rfl <;> cases h

theorem span_of_readCodePoint (h : readCodePoint cs = .ok (c, span, rest)) :
    ∃ digits, span = '{' :: (digits ++ ['}']) ∧ ∀ d ∈ digits, isHexDigit d = true := by
  unfold readCodePoint at h
  split at h
  next cs =>
    dsimp only at h
    split at h
    · split_ifs at h
      split at h
      · cases h
        exact ⟨cs.takeWhile isHexDigit, rfl, fun d => List.mem_takeWhile_imp⟩
      · cases h
    · cases h
  · cases h

theorem unquoted_of_readEscape (hquote : quote = '"' ∨ quote = '\'')
    (h : readEscape cs = .ok (c, span, rest)) {ds : List Char} (hds : Unquoted quote ds) :
    Unquoted quote ('\\' :: (span ++ ds)) := by
  unfold readEscape at h
  split at h
  · cases h
  next cs =>
    obtain ⟨_, hp, h⟩ := map_eq_ok.mp h
    cases h
    obtain ⟨digits, hspan, hdigits⟩ := span_of_readCodePoint hp
    refine .escape ?_
    rw [hspan]
    refine Unquoted.append (fun c hc => ?_) hds
    rcases List.mem_cons.mp hc with rfl | hc
    · rcases hquote with rfl | rfl <;> decide
    rcases List.mem_append.mp hc with hc | hc
    · exact ne_of_isHexDigit hquote (hdigits c hc)
    · rw [List.mem_singleton.mp hc]
      rcases hquote with rfl | rfl <;> decide
  · cases h
    exact .escape hds

theorem unquoted_of_readText (hquote : quote = '"' ∨ quote = '\'')
    (h : readText quote cs = .ok (contents, span, rest)) :
    ∃ body, span = body ++ [quote] ∧ Unquoted quote body := by
  fun_induction readText quote cs generalizing contents span rest with
  | case1 => cases h
  | case2 => cases h
  | case3 cs d span' rest' he ih =>
    obtain ⟨_, hp, h⟩ := map_eq_ok.mp h
    cases h
    obtain ⟨body, hbody, hunquoted⟩ := ih hp
    refine ⟨'\\' :: (span' ++ body), ?_, unquoted_of_readEscape hquote he hunquoted⟩
    simp [hbody]
  | case4 => cases h
  | case5 =>
    cases h
    exact ⟨[], rfl, .nil⟩
  | case6 c cs hslash hline hc ih =>
    obtain ⟨_, hp, h⟩ := map_eq_ok.mp h
    cases h
    obtain ⟨body, hbody, hunquoted⟩ := ih hp
    exact ⟨c :: body, congrArg (c :: ·) hbody, .plain hslash hline hc hunquoted⟩

theorem spannedBy_ofList {l : Lexeme} (hl : ∀ contents, l ≠ .text contents)
    (h : l.shown = String.ofList span) : l.SpannedBy span := by
  have hspan := Lexeme.SpannedBy.shown hl
  rwa [h, String.toList_ofList] at hspan

/-- **A lexeme is read from its span**: a string literal from quote to quote, all else as shown. -/
theorem spannedBy_of_readPiece {p : Piece} (h : readPiece c cs = .ok p) :
    p.lexeme.SpannedBy p.span := by
  unfold readPiece at h
  split at h
  next s hs =>
    cases cs with
    | nil => cases hs
    | cons d cs =>
      cases h
      exact spannedBy_ofList (by simp) (congrArg String.ofList (Symbol.chars_of_ofPair? hs))
  split at h
  next s hs =>
    cases h
    exact spannedBy_ofList (by simp) (congrArg String.ofList (Symbol.chars_of_ofChar? hs))
  split at h
  next hquote =>
    obtain ⟨⟨contents, span, rest⟩, ht, h⟩ := map_eq_ok.mp h
    cases h
    obtain ⟨body, rfl, hunquoted⟩ := unquoted_of_readText hquote ht
    exact .text hquote hunquoted
  split at h
  · obtain ⟨_, hn, h⟩ := map_eq_ok.mp h
    cases h
    exact spannedBy_ofList (by simp) rfl
  split at h
  · cases h
    exact spannedBy_ofList (by simp) rfl
  · cases h

end

/-! ## Texts -/

/-- A text `ahead`, behind a text `before`, is made up of the tokens of the scan, each at its place,
with nothing but blanks and comments between them, up to the end or to a fault. -/
inductive Accounted : List Char → List Char → Scan → Prop
  | complete {before gap : List Char} (hgap : Ignorable [] gap) :
    Accounted before gap ⟨[], .complete (.behind (before ++ gap))⟩
  | fault {before gap rest : List Char} {f : LexFault} (hgap : Ignorable rest gap)
    (hrest : rest ≠ []) :
    Accounted before (gap ++ rest) ⟨[], .fault (.behind (before ++ gap)) f⟩
  | token {before gap span rest : List Char} {l : Lexeme} {s : Scan}
    (hgap : Ignorable (span ++ rest) gap) (hspan : l.SpannedBy span) (hne : span ≠ [])
    (h : Accounted (before ++ gap ++ span) rest s) :
    Accounted before (gap ++ (span ++ rest)) (s.cons ⟨l, .behind (before ++ gap)⟩)

theorem accounted_scanFrom (before cs : List Char) :
    Accounted before cs (scanFrom (.behind before) cs) := by
  -- What was read goes over to `before`, so that places are counted from the front of the text.
  induction hn : cs.length using Nat.strong_induction_on generalizing before cs with
  | _ n ih =>
    subst hn
    have hgap := ignorable_splitGap cs
    have happend := splitGap_append false cs
    have hplace := Position.after_behind before (splitGap false cs).1
    rw [scanFrom]
    generalize (splitGap false cs).1 = gap at hgap happend hplace ⊢
    split
    next hrest =>
      rw [hrest] at hgap happend
      rw [hplace, ← happend, List.append_nil]
      exact .complete hgap
    next c tail hrest =>
      rw [hrest] at hgap happend
      rw [hplace, ← happend]
      split
      next f hfault => exact .fault hgap (List.cons_ne_nil c tail)
      next piece hpiece =>
        have hlength : piece.rest.length < cs.length := by
          have hpieceLength := length_of_readPiece hpiece
          have hgapLength := length_splitGap false cs
          rw [hrest] at hgapLength
          omega
        rw [Position.after_behind]
        rw [← readPiece_append hpiece] at hgap ⊢
        exact .token hgap (spannedBy_of_readPiece hpiece) (readPiece_span_ne_nil hpiece)
          (ih _ hlength _ piece.rest rfl)

/-- **Scanning accounts for every character of a text**, places included. -/
theorem accounted_scan (source : String) : Accounted [] source.toList (scan source) := by
  rw [scan, Position.start_eq]
  exact accounted_scanFrom [] source.toList

end Isa16
