import Isa16.Proofs.Program.Steps
import Isa16.Proofs.Program.Spacing

/-!
# Texts and their lexemes

* `Cuts`: a text is cut into lexemes, and its end lies inside a comment or not. Places play no part.
* `yields_iff_cuts`: that is how texts are scanned.
* `Border`: a character that ends every lexeme in front of it, other than a string literal.
* **`Cuts.append`**: what stands in front of a border is cut as if it stood alone.
-/

namespace Isa16

/-! ## Cutting without places -/

/-- Behind blanks and comments, the text is inside a comment. -/
def openAfter (inComment : Bool) : List Char → Bool
  | [] => inComment
  | c :: cs =>
    if inComment then openAfter (c ≠ '\n') cs
    else openAfter (c = '/' ∧ cs.head? = some '/') cs

/-- The text, which begins inside a comment or outside, is cut into the lexemes and ends inside a
comment or outside. -/
inductive Cuts : Bool → List Char → List Lexeme → Bool → Prop
  | gap {b : Bool} {cs : List Char} (h : (splitGap b cs).2 = []) : Cuts b cs [] (openAfter b cs)
  | piece {b o : Bool} {cs tail span rest : List Char} {c : Char} {l : Lexeme} {ls : List Lexeme}
    (h : (splitGap b cs).2 = c :: tail) (hread : readPiece c tail = .ok ⟨l, span, rest⟩)
    (hrest : Cuts false rest ls o) : Cuts b cs (l :: ls) o

variable {cs ds rest : List Char} {c d : Char} {l : Lexeme} {ls ls' : List Lexeme} {b o o' : Bool}

theorem yields_of_cuts (h : Cuts b cs ls o) (hb : b = false) (p : Position) :
    (scanFrom p cs).Yields ls := by
  induction h generalizing p with
  | gap h =>
    subst hb
    rw [scanFrom_of_splitGap_nil h]
    exact ⟨rfl, _, rfl⟩
  | piece h hread _ ih =>
    subst hb
    rw [scanFrom_of_splitGap_cons h hread]
    obtain ⟨htokens, hending⟩ := ih rfl _
    exact ⟨congrArg (_ :: ·) htokens, hending⟩

theorem cuts_of_yields {p : Position} (h : (scanFrom p cs).Yields ls) :
    ∃ o, Cuts false cs ls o := by
  fun_induction scanFrom p cs generalizing ls with
  | case1 =>
    obtain ⟨rfl, -⟩ := h
    exact ⟨_, .gap ‹_›⟩
  | case2 =>
    obtain ⟨-, q, hending⟩ := h
    cases hending
  | case3 =>
    rename_i hcons piece hread ih
    obtain ⟨rfl, hending⟩ := h
    obtain ⟨o, ho⟩ := ih ⟨rfl, hending⟩
    exact ⟨o, .piece hcons hread ho⟩

/-- Texts are scanned as they are cut. -/
theorem yields_iff_cuts {p : Position} : (scanFrom p cs).Yields ls ↔ ∃ o, Cuts false cs ls o :=
  ⟨cuts_of_yields, fun ⟨_, h⟩ => yields_of_cuts h rfl p⟩

/-! ## Borders -/

/-- The character goes on no lexeme in front of it but a string literal. -/
structure Border (d : Char) : Prop where
  notPart : isNamePart d = false
  notPair (c : Char) : Symbol.ofPair? c d = none
  notSlash : d ≠ '/'

theorem mem_of_ofPair? {s : Symbol} (h : Symbol.ofPair? c d = some s) :
    d ∈ ['=', '<', '>', '&', '|'] := by
  unfold Symbol.ofPair? at h
  split at h <;> cases h <;> simp

/-- What follows an operand, the separator of statements, and a space. -/
theorem border_of_mem (h : d ∈ ['.', '[', ']', ',', '(', ')', ';', ' ']) : Border d := by
  have hd : isNamePart d = false ∧ d ∉ ['=', '<', '>', '&', '|'] ∧ d ≠ '/' := by
    simp only [List.mem_cons, List.not_mem_nil, or_false] at h
    rcases h with rfl | rfl | rfl | rfl | rfl | rfl | rfl | rfl <;> decide
  obtain ⟨hpart, hpair, hslash⟩ := hd
  exact ⟨hpart, fun c => Option.eq_none_iff_forall_ne_some.mpr fun s hs =>
    hpair (mem_of_ofPair? hs), hslash⟩

theorem takeWhile_append_border {p : Char → Bool} (hd : p d = false) (cs ds : List Char) :
    (cs ++ d :: ds).takeWhile p = cs.takeWhile p := by
  induction cs with
  | nil => simp [hd]
  | cons c cs ih => by_cases hc : p c <;> simp [hc, ih]

theorem dropWhile_append_border {p : Char → Bool} (hd : p d = false) (cs ds : List Char) :
    (cs ++ d :: ds).dropWhile p = cs.dropWhile p ++ d :: ds := by
  induction cs with
  | nil => simp [hd]
  | cons c cs ih => by_cases hc : p c <;> simp [hc, ih]

theorem splitGap_cons_snd (b : Bool) (c : Char) (cs : List Char) : (splitGap b (c :: cs)).2 =
    if b then (splitGap (c ≠ '\n') cs).2
    else if c = '/' ∧ cs.head? = some '/' then (splitGap true cs).2
    else if isBlank c then (splitGap false cs).2
    else c :: cs := by
  rw [splitGap]
  split_ifs <;> rfl

theorem head?_append_border (hd : d ≠ '/') (cs ds : List Char) :
    (cs ++ d :: ds).head? = some '/' ↔ cs.head? = some '/' := by
  cases cs with
  | nil => simpa using hd
  | cons => exact Iff.rfl

/-- What is no gap is kept, with all that follows. -/
theorem splitGap_append_of_cons (hd : d ≠ '/') {tail : List Char}
    (h : (splitGap b cs).2 = c :: tail) (ds : List Char) :
    (splitGap b (cs ++ d :: ds)).2 = c :: (tail ++ d :: ds) := by
  induction cs generalizing b with
  | nil => cases h
  | cons x cs ih =>
    simp only [List.cons_append, splitGap_cons_snd, head?_append_border hd] at h ⊢
    split_ifs at h ⊢
    · exact ih h
    · exact ih h
    · exact ih h
    · cases h
      rfl

/-- Behind a gap, the text goes on inside a comment or outside. -/
theorem splitGap_append_of_nil (hd : d ≠ '/') (h : (splitGap b cs).2 = []) (ds : List Char) :
    (splitGap b (cs ++ d :: ds)).2 = (splitGap (openAfter b cs) (d :: ds)).2 := by
  induction cs generalizing b with
  | nil => rfl
  | cons x cs ih =>
    simp only [List.cons_append, openAfter]
    rw [splitGap_cons_snd] at h ⊢
    simp only [head?_append_border hd]
    split_ifs at h ⊢ with hb hslash hblank
    · exact ih h
    · rw [ih h, decide_eq_true hslash]
    · rw [ih h, decide_eq_false hslash]

theorem openAfter_append (hd : d ≠ '/') (b : Bool) (cs ds : List Char) :
    openAfter b (cs ++ d :: ds) = openAfter (openAfter b cs) (d :: ds) := by
  induction cs generalizing b with
  | nil => rfl
  | cons x cs ih =>
    simp only [List.cons_append, openAfter.eq_2 b x, head?_append_border hd]
    split_ifs
    · exact ih _
    · exact ih _

/-! ## Lexemes in front of a border -/

theorem takeWhile_append_of_cons {p : Char → Bool} (h : cs.dropWhile p = c :: rest)
    (ds : List Char) : (cs ++ ds).takeWhile p = cs.takeWhile p ∧
      (cs ++ ds).dropWhile p = c :: (rest ++ ds) := by
  induction cs with
  | nil => cases h
  | cons x cs ih =>
    by_cases hx : p x
    · rw [List.dropWhile_cons_of_pos hx] at h
      simpa [hx] using ih h
    · rw [List.dropWhile_cons_of_neg hx] at h
      cases h
      simp [hx]

theorem readCodePoint_append_right {span : List Char} (h : readCodePoint cs = .ok (c, span, rest))
    (ds : List Char) : readCodePoint (cs ++ ds) = .ok (c, span, rest ++ ds) := by
  unfold readCodePoint at h
  split at h
  next digits =>
    dsimp only at h
    split at h
    next tail htail =>
      obtain ⟨htake, hdrop⟩ := takeWhile_append_of_cons htail ds
      rw [List.cons_append, readCodePoint]
      simp only [htake, hdrop]
      split_ifs at h ⊢
      split at h
      · cases h
        rfl
      · cases h
    · cases h
  · cases h

theorem readEscape_append_right {span : List Char} (h : readEscape cs = .ok (c, span, rest))
    (ds : List Char) : readEscape (cs ++ ds) = .ok (c, span, rest ++ ds) := by
  unfold readEscape at h
  split at h
  · cases h
  next cs =>
    obtain ⟨_, hp, h⟩ := map_eq_ok.mp h
    cases h
    rw [List.cons_append, readEscape, readCodePoint_append_right hp]
    rfl
  next x cs hx =>
    cases h
    rw [List.cons_append, readEscape]
    exact hx

theorem readText_escape {quote : Char} {span : List Char}
    (h : readEscape cs = .ok (c, span, rest)) :
    readText quote ('\\' :: cs) = (readText quote rest).map fun (contents, more, rest) =>
      (c :: contents, '\\' :: span ++ more, rest) := by
  rw [readText]
  simp only [if_true]
  split
  next hfault =>
    rw [h] at hfault
    cases hfault
  next hok =>
    rw [h] at hok
    cases hok
    rfl

theorem readText_quote {quote : Char} (hslash : quote ≠ '\\') (hline : quote ≠ '\n')
    (cs : List Char) : readText quote (quote :: cs) = .ok ([], [quote], cs) := by
  rw [readText]
  simp only [if_neg hslash, if_neg hline, if_true]

theorem readText_plain {quote : Char} (hslash : c ≠ '\\') (hline : c ≠ '\n') (hquote : c ≠ quote)
    (cs : List Char) : readText quote (c :: cs) =
      (readText quote cs).map fun (contents, more, rest) => (c :: contents, c :: more, rest) := by
  rw [readText]
  simp only [if_neg hslash, if_neg hline, if_neg hquote]

theorem readText_append_right {quote : Char} {contents span : List Char}
    (h : readText quote cs = .ok (contents, span, rest)) (ds : List Char) :
    readText quote (cs ++ ds) = .ok (contents, span, rest ++ ds) := by
  fun_induction readText quote cs generalizing contents span rest with
  | case1 => cases h
  | case2 => cases h
  | case3 cs d span' rest' he ih =>
    obtain ⟨_, hp, h⟩ := map_eq_ok.mp h
    cases h
    rw [List.cons_append, readText_escape (readEscape_append_right he ds), ih hp]
    rfl
  | case4 => cases h
  | case5 cs hslash hline =>
    cases h
    rw [List.cons_append, readText_quote hslash hline]
  | case6 c cs hslash hline hquote ih =>
    obtain ⟨_, hp, h⟩ := map_eq_ok.mp h
    cases h
    rw [List.cons_append, readText_plain hslash hline hquote, ih hp]
    rfl

/-- Hexadecimal digits may stand in names. -/
theorem isNamePart_of_isHexDigit (h : isHexDigit c = true) : isNamePart c = true := by
  simp only [isHexDigit, Bool.or_eq_true, Bool.and_eq_true, decide_eq_true_eq, Char.le_def,
    UInt32.le_iff_toNat_le] at h
  simp only [isNamePart, isNameStart, Char.isAlpha, Char.isUpper, Char.isLower, Bool.or_eq_true,
    Bool.and_eq_true, decide_eq_true_eq, ge_iff_le, UInt32.le_iff_toNat_le]
  rcases h with (hdigit | ⟨hle, hge⟩) | ⟨hle, hge⟩
  · exact Or.inr hdigit
  · exact Or.inl (Or.inl (Or.inl (Or.inr ⟨hle, hge.trans (by decide)⟩)))
  · exact Or.inl (Or.inl (Or.inl (Or.inl ⟨hle, hge.trans (by decide)⟩)))

theorem isNamePart_of_isPart {r : Radix} (h : r.isPart c = true) : isNamePart c = true := by
  simp only [Radix.isPart, Radix.isDigit, Bool.or_eq_true, Bool.and_eq_true,
    decide_eq_true_eq] at h
  rcases h with rfl | ⟨hhex, -⟩
  · rfl
  · exact isNamePart_of_isHexDigit hhex

theorem Border.isPart (hd : Border d) (r : Radix) : r.isPart d = false := by
  by_contra hp
  rw [Bool.not_eq_false] at hp
  simpa [hd.notPart] using isNamePart_of_isPart hp

theorem isNamePart_of_ofLetter? {r : Radix} (h : Radix.ofLetter? c = some r) :
    isNamePart c = true := by
  unfold Radix.ofLetter? at h
  split at h <;> first | rfl | cases h

theorem Border.ofLetter? (hd : Border d) : Radix.ofLetter? d = none := by
  by_contra hne
  obtain ⟨r, hr⟩ := Option.ne_none_iff_exists'.mp hne
  simpa [hd.notPart] using isNamePart_of_ofLetter? hr

theorem splitMark_append_border (hd : Border d) (cs ds : List Char) :
    splitMark (cs ++ d :: ds) =
      ((splitMark cs).1, (splitMark cs).2.1, (splitMark cs).2.2 ++ d :: ds) := by
  rcases cs with _ | ⟨c, _ | ⟨letter, cs⟩⟩
  · have hzero : d ≠ '0' := by
      rintro rfl
      exact absurd hd.notPart (by decide)
    simp [splitMark, hzero]
  · by_cases hc : c = '0'
    · subst hc
      simp [splitMark, hd.ofLetter?]
    · simp [splitMark, hc]
  · by_cases hc : c = '0'
    · subst hc
      simp only [List.cons_append, splitMark]
      split <;> rfl
    · simp [splitMark, hc]

theorem any_head?_append_border (hd : Border d) (cs ds : List Char) :
    (cs ++ d :: ds).head?.any isNamePart = cs.head?.any isNamePart := by
  cases cs with
  | nil => exact hd.notPart
  | cons => rfl

theorem readNumber_append_border (hd : Border d) {span : List Char}
    (h : readNumber cs = .ok (span, rest)) (ds : List Char) :
    readNumber (cs ++ d :: ds) = .ok (span, rest ++ d :: ds) := by
  have hpart := hd.isPart (splitMark cs).1
  unfold readNumber at h ⊢
  simp only [splitMark_append_border hd, takeWhile_append_border hpart,
    dropWhile_append_border hpart, any_head?_append_border hd] at h ⊢
  split_ifs at h ⊢
  cases h
  rfl

theorem readPiece_append_border (hd : Border d) {tail span : List Char}
    (h : readPiece c tail = .ok ⟨l, span, rest⟩) (ds : List Char) :
    readPiece c (tail ++ d :: ds) = .ok ⟨l, span, rest ++ d :: ds⟩ := by
  have hpair : (tail ++ d :: ds).head?.bind (Symbol.ofPair? c) =
      tail.head?.bind (Symbol.ofPair? c) := by
    cases tail with
    | nil => exact hd.notPair c
    | cons => rfl
  unfold readPiece at h ⊢
  rw [hpair]
  split at h
  next s hs =>
    cases tail with
    | nil => cases hs
    | cons x tail =>
      cases h
      simp
  · split at h
    · cases h
      rfl
    · split_ifs at h ⊢
      · obtain ⟨_, ht, h⟩ := map_eq_ok.mp h
        cases h
        rw [readText_append_right ht]
        rfl
      · obtain ⟨_, hn, h⟩ := map_eq_ok.mp h
        cases h
        rw [← List.cons_append, readNumber_append_border hd hn]
        rfl
      · cases h
        rw [takeWhile_append_border hd.notPart, dropWhile_append_border hd.notPart]

/-- **What stands in front of a border is cut as if it stood alone**; the rest begins inside a
comment if it ends inside one. -/
theorem Cuts.append (hd : Border d) (h : Cuts b cs ls o) (h' : Cuts o (d :: ds) ls' o') :
    Cuts b (cs ++ d :: ds) (ls ++ ls') o' := by
  induction h with
  | @gap b cs hgap =>
    have hrest := splitGap_append_of_nil hd.notSlash hgap ds
    have hopen := openAfter_append hd.notSlash b cs ds
    cases h' with
    | gap hgap' =>
      rw [← hopen]
      exact .gap (hrest.trans hgap')
    | piece hcons hread hpieces => exact .piece (hrest.trans hcons) hread hpieces
  | piece hcons hread _ ih =>
    exact .piece (splitGap_append_of_cons hd.notSlash hcons ds)
      (readPiece_append_border hd hread ds) (ih h')

/-- A comment goes on through the end of its line. -/
theorem cuts_true_cons (h : Cuts (c ≠ '\n') cs ls o) : Cuts true (c :: cs) ls o := by
  have hrest : (splitGap true (c :: cs)).2 = (splitGap (c ≠ '\n') cs).2 := by
    rw [splitGap_cons_snd, if_pos rfl]
  cases h with
  | gap hgap =>
    have hopen : openAfter true (c :: cs) = openAfter (c ≠ '\n') cs := if_pos rfl
    rw [← hopen]
    exact .gap (hrest.trans hgap)
  | piece hcons hread hpieces => exact .piece (hrest.trans hcons) hread hpieces

theorem cuts_nil : Cuts false [] [] false :=
  .gap rfl

theorem cuts_cons {span : List Char} (hblank : isBlank c = false)
    (hcomment : ¬ (c = '/' ∧ cs.head? = some '/')) (hread : readPiece c cs = .ok ⟨l, span, rest⟩)
    (h : Cuts false rest ls o) : Cuts false (c :: cs) (l :: ls) o :=
  .piece (congrArg Prod.snd (splitGap_false_of_front hblank hcomment)) hread h

theorem cuts_blank (hc : isBlank c = true) (h : Cuts false cs ls o) :
    Cuts false (c :: cs) ls o := by
  have hslash : c ≠ '/' := by
    rintro rfl
    exact absurd hc (by decide)
  have hrest : (splitGap false (c :: cs)).2 = (splitGap false cs).2 := by
    simp [splitGap_cons_snd, hslash, hc]
  cases h with
  | gap hgap =>
    have hopen : openAfter false (c :: cs) = openAfter false cs := by simp [openAfter, hslash]
    rw [← hopen]
    exact .gap (hrest.trans hgap)
  | piece hcons hread hpieces => exact .piece (hrest.trans hcons) hread hpieces

theorem cuts_space (h : Cuts false cs ls o) : Cuts false (' ' :: cs) ls o :=
  cuts_blank (by decide) h

end Isa16
