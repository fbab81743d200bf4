import Isa16.Proofs.Program.Fragments
import Isa16.Proofs.Program.WellScoped

/-!
# Names that can be reached

* `readPiece_eq_identifier`: when the scanner reads a name.
* `isIdentifier_iff_yields`: what may be declared, without a dollar sign, is what the scanner reads
  as one name.
* `parse_name`: one name that is no keyword is an expression.
* `numberLocals`: locals in a table, each numbered by the size of the table before it;
  `checkLocals_eq_map`, `getElem?_numberLocals`: it refuses what `checkLocals` refuses, and numbers
  names by their positions.
* `Scope.Reaches`: in a text, every name that a program declares stands for what was declared.
* **`names_reachable`**: no name that may be declared is out of reach.
-/

namespace Isa16

/-! ## Names as tokens -/

section

variable {c : Char} {cs span rest : List Char} {name : String}

theorem readPiece_eq_identifier (h : readPiece c cs = .ok ⟨.identifier name, span, rest⟩) :
    isNameStart c = true ∧ name.toList = c :: cs.takeWhile isNamePart := by
  by_cases hc : isNameStart c = true
  · rw [readPiece_of_isNameStart hc] at h
    cases h
    exact ⟨hc, String.toList_ofList⟩
  · -- No other branch of the scanner makes a name.
    unfold readPiece at h
    split at h
    · cases h
    split at h
    · cases h
    split at h
    · obtain ⟨_, -, h⟩ := map_eq_ok.mp h
      cases h
    split at h
    · obtain ⟨_, -, h⟩ := map_eq_ok.mp h
      cases h
    · cases h

theorem isAlphanum_or_of_isNamePart (h : isNamePart c = true) (hc : c ≠ '$') :
    (c.isAlphanum || decide (c = '_')) = true := by
  simp only [isNamePart, isNameStart, Char.isAlphanum, Bool.or_eq_true, decide_eq_true_eq] at h ⊢
  tauto

theorem isAlpha_or_of_isNameStart (h : isNameStart c = true) (hc : c ≠ '$') :
    (c.isAlpha || decide (c = '_')) = true := by
  simp only [isNameStart, Bool.or_eq_true, decide_eq_true_eq] at h ⊢
  tauto

/-- Apart from the dollar sign, both lists of characters are the same. -/
theorem isIdentifier_iff_of_isNameStart (hname : name.toList = c :: cs) :
    isIdentifier name = true ↔
      '$' ∉ name.toList ∧ isNameStart c = true ∧ ∀ d ∈ cs, isNamePart d = true := by
  have hplain : ∀ d : Char, (d.isAlphanum || decide (d = '_')) = true → d ≠ '$' := by
    rintro d h rfl
    cases h
  have hstart : (c.isAlpha || decide (c = '_')) = true → c ≠ '$' := by
    rintro h rfl
    cases h
  rw [hname, List.mem_cons, not_or]
  unfold isIdentifier
  rw [hname]
  simp only [Bool.and_eq_true, List.all_eq_true]
  constructor
  · rintro ⟨hc, hcs⟩
    exact ⟨⟨(hstart hc).symm, fun hmem => hplain '$' (hcs '$' hmem) rfl⟩, isNameStart_of_alpha hc,
      fun d hd => isNamePart_of_alphanum (hcs d hd)⟩
  · rintro ⟨⟨hne, hmem⟩, hc, hcs⟩
    exact ⟨isAlpha_or_of_isNameStart hc (Ne.symm hne), fun d hd =>
      isAlphanum_or_of_isNamePart (hcs d hd) fun heq => hmem (heq ▸ hd)⟩

theorem yields_of_isPlain {name : String} (h : (Lexeme.identifier name).IsPlain) :
    (scan name).Yields [.identifier name] :=
  yields_of_cuts (cuts_of_isPlain h) rfl .start

theorem isNamePart_of_yields (h : (scan name).Yields [.identifier name]) :
    ∃ c cs, name.toList = c :: cs ∧ isNameStart c = true ∧ ∀ d ∈ cs, isNamePart d = true := by
  obtain ⟨o, hcuts⟩ := cuts_of_yields h
  cases hcuts with
  | piece hgap hread hrest =>
    obtain ⟨hc, hname⟩ := readPiece_eq_identifier hread
    exact ⟨_, _, hname, hc, fun d => List.mem_takeWhile_imp⟩

/-- **What may be declared is one name to the scanner**, and what is one name to it may be declared
unless it has a dollar sign. -/
theorem isIdentifier_iff_yields :
    isIdentifier name = true ↔ '$' ∉ name.toList ∧ (scan name).Yields [.identifier name] := by
  constructor
  · intro h
    obtain ⟨c, cs, hname, -⟩ := isIdentifier_cases h
    exact ⟨((isIdentifier_iff_of_isNameStart hname).mp h).1,
      yields_of_isPlain (isPlain_of_isIdentifier h)⟩
  · rintro ⟨hdollar, hyields⟩
    obtain ⟨c, cs, hname, hparts⟩ := isNamePart_of_yields hyields
    exact (isIdentifier_iff_of_isNameStart hname).mpr ⟨hdollar, hparts⟩

theorem parses_name (h : isKeyword name = false) :
    Parses (.statements none [.expr (.ident name)]) 2 [.identifier name] [] := by
  have hif : name ≠ "if" := by
    rintro rfl
    cases h
  have hend : Stops 0 ([] : List Lexeme).head? := stops_none 0
  have hunary := parses_unary_of_primary (.ident h) rfl hend
  have hself := parses_expression_of_unary hunary hend (by simp)
  have hbody : Parses (.statementBody (.expr (.ident name))) (1 + 0) [.identifier name] [] :=
    .expressionBody (by simpa using hif) hself (by simp)
  exact parses_statement (j := 0) rfl (by simp) (by simp) (.statement hbody)

/-- **One name that is no keyword is an expression.** -/
theorem parse_name (hplain : (Lexeme.identifier name).IsPlain) (h : isKeyword name = false) :
    parse name = .ok [.expr (.ident name)] :=
  parse_eq_ok_iff_parses.mpr ⟨_, yields_of_isPlain hplain, 2, by decide, parses_name h⟩

end

/-! ## Numbers of locals -/

/-- Enters names into a table in order, each with the size of the table as its number. -/
def numberLocals (table : Std.ExtTreeMap String Nat) :
    List String → Except CompileFault (Std.ExtTreeMap String Nat)
  | [] => .ok table
  | name :: rest =>
    if isFreeName name then
      if table.contains name then .error (.duplicateLocal name)
      else numberLocals (table.insert name table.size) rest
    else .error (.invalidLocal name)

section

variable {table t : Std.ExtTreeMap String Nat} {seen names : List String}

theorem checkLocals_eq_map (h : ∀ name, name ∈ table ↔ name ∈ seen) :
    checkLocals seen names = (numberLocals table names).map fun _ => () := by
  induction names generalizing table seen with
  | nil => rfl
  | cons name names ih =>
    have hcontains : table.contains name = seen.contains name := by
      rw [Bool.eq_iff_iff, Std.ExtTreeMap.contains_iff_mem, List.contains_iff_mem]
      exact h name
    have hnext : ∀ n, n ∈ table.insert name table.size ↔ n ∈ name :: seen := fun n => by
      rw [Std.ExtTreeMap.mem_insert, List.mem_cons, h n, compare_eq_iff_eq, eq_comm]
    rw [checkLocals, numberLocals, hcontains]
    split_ifs
    · rfl
    · exact ih hnext
    · rfl

theorem size_insert_of_contains {name : String} (h : ¬ table.contains name = true) (i : Nat) :
    (table.insert name i).size = table.size + 1 := by
  rw [Std.ExtTreeMap.size_insert, if_neg h]

theorem size_numberLocals (h : numberLocals table names = .ok t) :
    t.size = table.size + names.length := by
  induction names generalizing table with
  | nil =>
    cases h
    rfl
  | cons name names ih =>
    rw [numberLocals] at h
    split_ifs at h with hfree hseen
    rw [ih h, size_insert_of_contains hseen, List.length_cons]
    omega

theorem getElem?_numberLocals (h : numberLocals table names = .ok t) (name : String) :
    t[name]? = table[name]?.or ((names.idxOf? name).map (table.size + ·)) := by
  induction names generalizing table with
  | nil =>
    cases h
    simp
  | cons first names ih =>
    rw [numberLocals] at h
    split_ifs at h with hfree hseen
    rw [ih h, size_insert_of_contains hseen, Std.ExtTreeMap.getElem?_insert, List.idxOf?_cons]
    by_cases hname : first = name
    · subst hname
      have hnone : table[first]? = none :=
        Std.ExtTreeMap.getElem?_eq_none (by simpa using hseen)
      simp [hnone]
    · have hshift : (fun i => table.size + 1 + i) = fun i => table.size + (i + 1) := by
        funext i
        omega
      simp [hname, Function.comp_def, hshift]

end

/-! ## Programs -/

namespace Scope

variable {σ : Type}

/-- In a text, every name that the program declares stands for what was declared, and for nothing
else: locals for the slots of a call, and names of the library behind a dollar sign for entries. -/
structure Reaches (p : Program σ) (s : Scope σ) : Prop where
  /-- The text of a local is one name, is read as such, and stands for the slot of its position,
  as a value and as a target. -/
  slot {i : Nat} {name : String} (h : p.locals[i]? = some name) :
    (scan name).Yields [.identifier name] ∧ parse name = .ok [.expr (.ident name)] ∧
      ∃ slot : Fin s.slots, slot.val = i ∧ s.slot? name = some slot ∧
        s.code (.ident name) = .ok (.read (.slot slot)) ∧
        s.place (.ident name) = .ok (.slot slot)
  /-- Names with one slot are the same. -/
  distinct {m n : String} {slot : Fin s.slots} (hm : s.slot? m = some slot)
    (hn : s.slot? n = some slot) : m = n
  /-- A call allocates the slots of the scope. -/
  allocated {r : Routine σ} (h : p.compile = .ok r) : r.slots = s.slots
  /-- The slot of a local is the number of locals that were entered before it. -/
  numbered : ∃ table, numberLocals ∅ p.locals = .ok table ∧ table.size = s.slots ∧
    ∀ name, table[name]? = (s.slot? name).map Fin.val
  /-- An entry's name behind a dollar sign is one name, is read as such, and stands for the
  entry. -/
  entry {name : String} {e : Entry σ} (h : p.library.get? name = some e) :
    (scan (Snippet.entry name)).Yields [.identifier (Snippet.entry name)] ∧
      parse (Snippet.entry name) = .ok [.expr (.ident (Snippet.entry name))] ∧
      s.entry (.ident (Snippet.entry name)) = .ok e

variable {p : Program σ} {s : Scope σ} {misuse : CompileFault}

theorem placeOf_slot (hs : s.Free) {name : String} {slot : Fin s.slots}
    (h : s.slot? name = some slot) (keys : Except CompileFault (List (Code σ s.slots))) :
    s.placeOf misuse (.ident name) keys = .ok (.slot slot) := by
  obtain ⟨hcontext, hoperands⟩ := hs name (isSome_slot?.mp (Option.isSome_of_eq_some h))
  have hroot : s.root misuse (.ident name) = .ok (.slot slot) := by
    rw [root, if_neg hcontext, if_neg hoperands, h]
  rw [placeOf, hroot]
  rfl

theorem exists_slot (hs : s.locals.Nodup) {i : Nat} {name : String}
    (h : s.locals[i]? = some name) : ∃ slot : Fin s.slots,
      slot.val = i ∧ s.slot? name = some slot := by
  obtain ⟨hi, rfl⟩ := List.getElem?_eq_some_iff.mp h
  refine ⟨⟨i, hi⟩, rfl, ?_⟩
  rw [slot?, List.finIdxOf?_eq_some_iff]
  exact ⟨rfl, fun j hj heq => absurd (hs.getElem_inj_iff.mp heq) (Nat.ne_of_lt hj)⟩

theorem exists_numberLocals (h : Succeeds (checkLocals [] s.locals)) :
    ∃ table, numberLocals ∅ s.locals = .ok table ∧ table.size = s.slots ∧
      ∀ name, table[name]? = (s.slot? name).map Fin.val := by
  have hcheck : checkLocals [] s.locals = (numberLocals ∅ s.locals).map fun _ => () :=
    checkLocals_eq_map (by simp)
  rw [hcheck, succeeds_map] at h
  obtain ⟨table, htable⟩ := h
  refine ⟨table, htable, ?_, fun name => ?_⟩
  · simpa using size_numberLocals htable
  · rw [getElem?_numberLocals htable, slot?, ← List.idxOf?_eq_map_finIdxOf?_val]
    simp

theorem mem_names_of_get? {lib : Library σ} {name : String} {e : Entry σ}
    (h : lib.get? name = some e) : name ∈ lib.names := by
  rw [Library.names, Std.ExtTreeMap.mem_keys]
  exact Std.ExtTreeMap.mem_iff_isSome_getElem?.mpr (Option.isSome_of_eq_some h)

end Scope

/-- **Every name that may be declared is reached.** The texts that may be declared are those without
a dollar sign that the scanner reads as one name, and in a program whose names are in order each of
them stands for what was declared, whatever else is declared. -/
theorem names_reachable :
    (∀ name, isIdentifier name = true ↔
      '$' ∉ name.toList ∧ (scan name).Yields [.identifier name]) ∧
    ∀ {σ : Type} {p : Program σ} {s : Scope σ}, Scope.ofProgram p = .ok s → s.Reaches p := by
  refine ⟨fun name => isIdentifier_iff_yields, fun {σ p s} h => ?_⟩
  obtain ⟨⟨hentries, hlocals⟩, rfl⟩ := ofProgram_eq_ok_iff.mp h
  obtain ⟨hfree, hnodup, -⟩ := succeeds_checkLocals.mp hlocals
  constructor
  case slot =>
    intro i name hname
    obtain ⟨hidentifier, hkeyword, -⟩ := isFreeName_iff.mp (hfree name (List.mem_of_getElem? hname))
    have hplain := isPlain_of_isIdentifier hidentifier
    obtain ⟨slot, hslot, hfound⟩ := Scope.exists_slot (s := ⟨p.locals, p.library⟩) hnodup hname
    refine ⟨yields_of_isPlain hplain, parse_name hplain hkeyword, slot, hslot, hfound, ?_,
      Scope.placeOf_slot (free_of_locals hfree) hfound _⟩
    rw [Scope.code, Scope.placeOf_slot (free_of_locals hfree) hfound]
    rfl
  case distinct =>
    intro m n slot hm hn
    exact Scope.slot?_injective _ hm hn
  case allocated =>
    intro r hr
    obtain ⟨ss, body, -, -, rfl⟩ := Program.compile_eq_ok hr
    rfl
  case numbered => exact Scope.exists_numberLocals (s := ⟨p.locals, p.library⟩) hlocals
  case entry =>
    intro name e he
    have hplain := isPlain_entry (hentries name (Scope.mem_names_of_get? he))
    exact ⟨yields_of_isPlain hplain, parse_name hplain (isKeyword_entry name),
      Scope.entry_eq_ok_iff.mpr ⟨name, rfl, he⟩⟩

/-- Locals whose names begin with keywords, and library names that are keywords. -/
def keywordProgram : Program Cells where
  name := "keywords"
  locals := ["news", "iff"]
  library := Library.ofList [
    ("new", .function fun args => Effect.ofExcept (.ok (args.headD .undefined))),
    ("if", .construct fun args => Effect.ofExcept (.ok (args.headD .undefined)))]
  instructions := ["iff = $new(news)", "news = new $if(iff)"]

theorem reaches_keywordProgram : ∃ s, Scope.ofProgram keywordProgram = .ok s ∧
    s.Reaches keywordProgram ∧ s.slots = 2 ∧ ∃ r, keywordProgram.compile = .ok r ∧ r.slots = 2 := by
  have hscope : Scope.ofProgram keywordProgram =
      .ok ⟨keywordProgram.locals, keywordProgram.library⟩ := by rfl
  have hreaches := names_reachable.2 hscope
  have hcompile : (keywordProgram.compile.toOption).isSome = true := by cbv
  refine ⟨_, hscope, hreaches, rfl, ?_⟩
  cases hr : keywordProgram.compile with
  | error e => simp [hr, Except.toOption] at hcompile
  | ok r => exact ⟨r, rfl, hreaches.allocated hr⟩

end Isa16
