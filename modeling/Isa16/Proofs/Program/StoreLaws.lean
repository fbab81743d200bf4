import Isa16.Proofs.Program.Evaluation

/-!
# Laws of loads and stores

* `LawfulStores`: what is asked of machine states whose storable paths are known: a load changes
  nothing, a store changes the value at its own path only and no path's being storable, and stores
  at two paths commute.
* `Cells.Storable`: a name that holds no array, or an index of the array that a name holds.
* `Cells.Puts`, `Cells.store_eq_ok_iff`: what a store puts behind a name where it succeeds.
* `Cells.load_of_puts`, `Cells.load_eq_of_puts`: what is loaded behind a store, at its path and at
  every other one.
* `Cells.storable_iff_of_puts`, `Cells.puts_comm`: a store leaves the storable paths as they were,
  and two stores may change places.
* **`Cells.lawfulStores`**: the plain machine state obeys the laws.
-/

namespace Isa16

/-- The laws of loads and stores, in machine states where these paths can be stored to. -/
structure LawfulStores (σ : Type) [MachineState σ] (Storable : σ → List Key → Prop) : Prop where
  /-- A load changes nothing, also where it fails. -/
  load_quiet (s : σ) (p : List Key) :
    ∃ r, MachineState.load p s = (Effect.ofExcept r : Effect σ Value) s
  /-- Which stores succeed. -/
  store_iff (s : σ) (p : List Key) (v : Value) :
    (∃ s', MachineState.store p v s = .ok () s') ↔ Storable s p
  /-- A store that fails changes nothing. -/
  store_error {s s' : σ} {p : List Key} {v : Value} {e : RunError} :
    MachineState.store p v s = .error e s' → s' = s
  /-- What has been stored is loaded. -/
  load_store {s s' : σ} {p : List Key} {v : Value} :
    MachineState.store p v s = .ok () s' → MachineState.load p s' = .ok v s'
  /-- At every other path the same is loaded as before, or the load fails as before. -/
  load_store_of_ne {s s' : σ} {p q : List Key} {v : Value} :
    MachineState.store p v s = .ok () s' → q ≠ p →
      ∃ r, MachineState.load q s = (Effect.ofExcept r : Effect σ Value) s ∧
        MachineState.load q s' = (Effect.ofExcept r : Effect σ Value) s'
  /-- The paths that can be stored to stay the same. -/
  storable_iff {s s' : σ} {p q : List Key} {v : Value} :
    MachineState.store p v s = .ok () s' → (Storable s' q ↔ Storable s q)
  /-- Two stores at different paths that succeed do so in the other order, with the same end. -/
  store_comm {s s₁ s₂ : σ} {p q : List Key} {v w : Value} :
    p ≠ q → MachineState.store p v s = .ok () s₁ → MachineState.store q w s₁ = .ok () s₂ →
      ∃ s', MachineState.store q w s = .ok () s' ∧ MachineState.store p v s' = .ok () s₂

namespace Cells

variable {c d e : Cells} {p q : List Key} {v w : Value} {name : String}

/-- A store goes to a name that holds no array, or to an element of an array. -/
inductive Storable (c : Cells) : List Key → Prop
  | scalar {name : String} (h : c.array? name = none) : Storable c [.name name]
  | element {name : String} {i : Int64} {vs : Array Value} (h : c.array? name = some vs)
    (hpos : 0 ≤ i.toInt) (hlt : i.toInt < vs.size) : Storable c [.name name, .index i]

/-! ## Names and their cells -/

theorem array?_eq_some_iff {vs : Array Value} :
    c.array? name = some vs ↔ c.get? name = some (.array vs) := by
  unfold array?
  split
  next us heq => simp [heq]
  next hnot => exact ⟨fun h => (nomatch h), fun h => absurd h (hnot vs)⟩

theorem array?_eq_none_iff : c.array? name = none ↔ ∀ vs, c.get? name ≠ some (.array vs) := by
  simp only [Option.eq_none_iff_forall_ne_some, ne_eq, array?_eq_some_iff]

theorem array?_congr (h : c.get? name = d.get? name) : c.array? name = d.array? name := by
  rw [array?, array?, h]

theorem element?_congr (h : c.get? name = d.get? name) : c.element? name = d.element? name := by
  funext index
  rw [element?, element?, array?_congr h]

theorem load_congr (h : c.get? name = d.get? name) (keys : List Key) :
    c.load (.name name :: keys) = d.load (.name name :: keys) := by
  rcases keys with _ | ⟨key, _ | ⟨_, _⟩⟩
  · rw [load, load, h]
  · cases key with
    | name => rfl
    | index i => rw [load, load, element?_congr h]
  · cases key <;> rfl

theorem put_comm {m n : String} (h : m ≠ n) (cell cell' : Cell) :
    (c.put m cell).put n cell' = (c.put n cell').put m cell := by
  refine ext_get? fun name => ?_
  simp only [get?_put]
  split_ifs with hn hm
  · exact absurd (hm.trans hn.symm) h
  · rfl
  · rfl
  · rfl

theorem array?_put (m n : String) (cell : Cell) : (c.put m cell).array? n =
    if m = n then (match cell with | .array vs => some vs | .scalar _ => none) else c.array? n := by
  rw [array?, get?_put]
  split_ifs
  · cases cell <;> rfl
  · rfl

/-! ## What a store puts -/

/-- What stands behind the names once a value is stored at a path. -/
inductive Puts (c : Cells) (v : Value) : List Key → Cells → Prop
  | scalar {name : String} (h : c.array? name = none) : Puts c v [.name name] (c.setScalar name v)
  | element {name : String} {i : Int64} {k : Nat} {vs : Array Value}
    (h : c.get? name = some (.array vs)) (hi : i.toInt = k) (hk : k < vs.size) :
    Puts c v [.name name, .index i] (c.put name (.array (vs.setIfInBounds k v)))

theorem store_name (h : c.array? name = none) :
    c.store [.name name] v = .ok (c.setScalar name v) := by
  rw [array?_eq_none_iff] at h
  rw [store]
  split
  next vs heq => exact absurd heq (h vs)
  next => rfl

/-- **Where a store succeeds**, and what it leaves. -/
theorem store_eq_ok_iff : c.store p v = .ok d ↔ Puts c v p d := by
  constructor
  · intro h
    unfold store at h
    split at h
    next name =>
      split at h
      · cases h
      next hnot =>
        cases h
        exact .scalar (array?_eq_none_iff.mpr hnot)
    next name i =>
      split at h
      next hset =>
        cases h
        obtain ⟨k, hk, hset⟩ := Option.bind_eq_some_iff.mp hset
        unfold setElement? at hset
        split at hset
        next vs hvs =>
          split at hset <;> cases hset
          exact .element (array?_eq_some_iff.mp hvs) (Int.mem_toNat?.mp hk) (by assumption)
        next => cases hset
      next => cases h
    next => cases h
  · intro h
    cases h with
    | scalar h => exact store_name h
    | element h hi hk => exact store_element h hi hk

theorem exists_puts_iff : (∃ d, Puts c v p d) ↔ c.Storable p := by
  constructor
  · rintro ⟨d, h⟩
    cases h with
    | scalar h => exact .scalar h
    | element h hi hk => exact .element (array?_eq_some_iff.mpr h) (by omega) (by omega)
  · intro h
    cases h with
    | scalar h => exact ⟨_, .scalar h⟩
    | element h hpos hlt =>
      exact ⟨_, .element (array?_eq_some_iff.mp h) (Int.toNat_of_nonneg hpos).symm (by omega)⟩

/-! ## What is loaded behind a store -/

theorem load_of_puts (h : Puts c v p d) : d.load p = .ok v := by
  cases h with
  | scalar h => exact load_scalar (by rw [setScalar, get?_put, if_pos rfl])
  | element h hi hk =>
    refine load_element (by rw [get?_put, if_pos rfl]) hi ?_
    rw [Array.getElem?_setIfInBounds_self_of_lt hk]

theorem load_index_congr {i : Int64}
    (h : ∀ k : Nat, i.toInt = k → c.element? name k = d.element? name k) :
    c.load [.name name, .index i] = d.load [.name name, .index i] := by
  have hbind : i.toInt.toNat?.bind (c.element? name) = i.toInt.toNat?.bind (d.element? name) :=
    Option.bind_congr fun k hk => h k (Int.mem_toNat?.mp hk)
  rw [load, load, hbind]

theorem load_index_setScalar (h : c.array? name = none) (i : Int64) :
    (c.setScalar name v).load [.name name, .index i] = c.load [.name name, .index i] := by
  refine load_index_congr fun k _ => ?_
  rw [element?, element?, h, setScalar, array?_put, if_pos rfl]

theorem load_index_set {vs : Array Value} {i j : Int64} {k : Nat}
    (h : c.get? name = some (.array vs)) (hi : i.toInt = k) (hne : j ≠ i) :
    (c.put name (.array (vs.setIfInBounds k v))).load [.name name, .index j] =
      c.load [.name name, .index j] := by
  refine load_index_congr fun l hj => ?_
  have hkl : k ≠ l := by
    rintro rfl
    exact hne (Int64.toInt_inj.mp (hj.trans hi.symm))
  rw [element?_of_array (by rw [get?_put, if_pos rfl]), element?_of_array h,
    Array.getElem?_setIfInBounds_ne hkl]

theorem load_name_put_array {us vs : Array Value} (h : c.get? name = some (.array us)) :
    (c.put name (.array vs)).load [.name name] = c.load [.name name] := by
  rw [load, load, get?_put, if_pos rfl, h]

theorem Puts.exists_put (h : Puts c v p d) : ∃ name keys cell, p = .name name :: keys ∧
    d = c.put name cell ∧ ∀ c', c'.get? name = c.get? name → Puts c' v p (c'.put name cell) := by
  cases h with
  | scalar h => exact ⟨_, _, _, rfl, rfl, fun c' hc' => .scalar ((array?_congr hc').trans h)⟩
  | element h hi hk => exact ⟨_, _, _, rfl, rfl, fun c' hc' => .element (hc'.trans h) hi hk⟩

/-- **A store changes no load at another path**, also none that fails. -/
theorem load_eq_of_puts (h : Puts c v p d) (hne : q ≠ p) : d.load q = c.load q := by
  obtain ⟨m, keys', cell, rfl, hput, -⟩ := h.exists_put
  rcases q with _ | ⟨n | i, keys⟩
  · rfl
  · by_cases hm : m = n
    · subst hm
      -- Under the same name only the scalar or one element is loaded.
      rcases keys with _ | ⟨_ | j, _ | ⟨_, _⟩⟩
      · cases h with
        | scalar => exact absurd rfl hne
        | element h => exact load_name_put_array h
      · rfl
      · rfl
      · cases h with
        | scalar h => exact load_index_setScalar h j
        | element h hi => exact load_index_set h hi (by simpa using hne)
      · rfl
    · exact load_congr (by rw [hput, get?_put, if_neg hm]) keys
  · rfl

/-! ## Two stores -/

theorem Puts.size_eq (h : Puts c v p d) (name : String) :
    (d.array? name).map Array.size = (c.array? name).map Array.size := by
  cases h with
  | @scalar m h =>
    rw [setScalar, array?_put]
    split_ifs with hm
    · rw [← hm, h]
    · rfl
  | @element m i k vs h hi hk =>
    rw [array?_put]
    split_ifs with hm
    · rw [← hm, array?_eq_some_iff.mpr h, Option.map_some, Option.map_some,
        Array.size_setIfInBounds]
    · rfl

theorem Storable.congr (h : ∀ name, (d.array? name).map Array.size = (c.array? name).map Array.size)
    (hq : c.Storable q) : d.Storable q := by
  cases hq with
  | scalar hnone =>
    have hsize := h ‹_›
    rw [hnone, Option.map_none, Option.map_eq_none_iff] at hsize
    exact .scalar hsize
  | element hvs hpos hlt =>
    have hsize := h ‹_›
    rw [hvs, Option.map_some] at hsize
    obtain ⟨us, hus, hsize⟩ := Option.map_eq_some_iff.mp hsize
    exact .element hus hpos (hsize ▸ hlt)

/-- **A store makes no path storable**, and none that was so is lost. -/
theorem storable_iff_of_puts (h : Puts c v p d) : d.Storable q ↔ c.Storable q :=
  ⟨.congr fun name => (h.size_eq name).symm, .congr h.size_eq⟩

theorem puts_comm_of_array {vs : Array Value} {i j : Int64} {k l : Nat}
    (h : c.get? name = some (.array vs)) (hi : i.toInt = k) (hk : k < vs.size) (hj : j.toInt = l)
    (hl : l < vs.size) (hne : i ≠ j) : ∃ c', Puts c w [.name name, .index j] c' ∧
      Puts c' v [.name name, .index i] ((c.put name (.array (vs.setIfInBounds k v))).put name
        (.array ((vs.setIfInBounds k v).setIfInBounds l w))) := by
  have hkl : k ≠ l := by
    rintro rfl
    exact hne (Int64.toInt_inj.mp (hi.trans hj.symm))
  refine ⟨_, .element h hj hl, ?_⟩
  have hlast : ((c.put name (.array (vs.setIfInBounds l w))).put name
      (.array ((vs.setIfInBounds l w).setIfInBounds k v))) = _ := put_put _ _ _ _
  rw [put_put, Array.setIfInBounds_comm _ _ hkl, ← hlast]
  exact .element (by rw [get?_put, if_pos rfl]) hi (by rwa [Array.size_setIfInBounds])

/-- **Stores at different paths may change places.** -/
theorem puts_comm (hne : p ≠ q) (h : Puts c v p d) (h' : Puts d w q e) :
    ∃ c', Puts c w q c' ∧ Puts c' v p e := by
  obtain ⟨m, keys, cell, hp, hd, hputs⟩ := h.exists_put
  obtain ⟨n, keys', cell', hq, he, hputs'⟩ := h'.exists_put
  by_cases hmn : m = n
  · -- A name holds a scalar or an array, so that both are elements of its array.
    subst hmn
    cases h with
    | scalar h =>
      cases h' with
      | scalar =>
        cases hp
        cases hq
        exact absurd rfl hne
      | element h' =>
        cases hp
        cases hq
        rw [setScalar, get?_put, if_pos rfl] at h'
        cases h'
    | element h hi hk =>
      cases h' with
      | scalar h' =>
        cases hp
        cases hq
        rw [array?_put, if_pos rfl] at h'
        cases h'
      | element h' hj hl =>
        cases hp
        cases hq
        rw [get?_put, if_pos rfl] at h'
        cases h'
        rw [Array.size_setIfInBounds] at hl
        exact puts_comm_of_array h hi hk hj hl (by simpa using hne)
  · subst hd
    subst he
    refine ⟨_, hputs' c ?_, ?_⟩
    · rw [get?_put, if_neg hmn]
    · rw [put_comm hmn]
      exact hputs _ (by rw [get?_put, if_neg (Ne.symm hmn)])

/-! ## The laws -/

theorem store_run_iff : MachineState.store p v c = .ok () d ↔ Puts c v p d := by
  rw [← store_eq_ok_iff]
  refine ⟨fun h => ?_, store_of_ok⟩
  cases hs : c.store p v with
  | ok d' =>
    rw [store_of_ok hs] at h
    cases h
    rfl
  | error e =>
    rw [store_of_error hs] at h
    cases h

theorem eq_of_store_run_error {error : RunError} (h : MachineState.store p v c = .error error d) :
    d = c := by
  cases hs : c.store p v with
  | ok d' =>
    rw [store_of_ok hs] at h
    cases h
  | error e =>
    rw [store_of_error hs] at h
    cases h
    rfl

/-- **The plain machine state obeys the laws of loads and stores.** A store succeeds at a name that
holds no array, and at an index of the array that a name holds. -/
theorem lawfulStores : LawfulStores Cells Storable where
  load_quiet c p := ⟨c.load p, rfl⟩
  store_iff c p v := by
    simp only [store_run_iff]
    exact exists_puts_iff
  store_error := eq_of_store_run_error
  load_store h := load_of_ok (load_of_puts (store_run_iff.mp h))
  load_store_of_ne {c d p q v} h hne := by
    have hload := load_eq_of_puts (store_run_iff.mp h) hne
    exact ⟨c.load q, rfl, congrArg (fun r => (Effect.ofExcept r : Effect Cells Value) d) hload⟩
  storable_iff h := storable_iff_of_puts (store_run_iff.mp h)
  store_comm hne h h' := by
    obtain ⟨c', hc', he⟩ := puts_comm hne (store_run_iff.mp h) (store_run_iff.mp h')
    exact ⟨c', store_run_iff.mpr hc', store_run_iff.mpr he⟩

end Cells

end Isa16
