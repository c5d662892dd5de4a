import IoEmulator.Foundation.KeySets
import Mathlib.Data.List.AList
import Mathlib.Data.List.Forall2

/-!
# Key maps in which the first insertion wins

`emplace` inserts only under a fresh key, as an associative container with
unique keys does. Values indexed by a key of their own are found again by the
first list entry carrying that key.

## Implementation notes

The carrier is Mathlib's `AList`, whose entries have distinct keys by
construction. Its own `insert` overwrites, so it is used for fresh keys only.
-/

namespace Foundation.FirstWinsMap

open Foundation.KeySets

variable {κ ν ι ε : Type*} [DecidableEq κ]

/-- A finite map with one value for each stored key. -/
abbrev KeyMap (κ ν : Type*) := AList (fun _ : κ => ν)

/-- The value stored under a key. -/
def KeyMap.find (m : KeyMap κ ν) (a : κ) : Option ν := m.lookup a

@[simp] theorem find_empty (a : κ) : (∅ : KeyMap κ ν).find a = none := AList.lookup_empty a

theorem find_eq_none {m : KeyMap κ ν} {a : κ} : m.find a = none ↔ a ∉ m := AList.lookup_eq_none

theorem find_isSome {m : KeyMap κ ν} {a : κ} : (m.find a).isSome ↔ a ∈ m := AList.lookup_isSome

/-- Store under a key, replacing what it held. -/
def KeyMap.store (m : KeyMap κ ν) (k : κ) (v : ν) : KeyMap κ ν := m.insert k v

@[simp] theorem find_store_self (m : KeyMap κ ν) (k : κ) (v : ν) :
    (m.store k v).find k = some v := AList.lookup_insert m

theorem find_store_ne (m : KeyMap κ ν) {k a : κ} (h : a ≠ k) (v : ν) :
    (m.store k v).find a = m.find a := AList.lookup_insert_ne h

/-- Insert under a fresh key and leave the map alone when the key is taken. -/
def emplace (k : κ) (v : ν) (m : KeyMap κ ν) : KeyMap κ ν :=
  if k ∈ m then m else m.store k v

@[simp] theorem find_emplace (k a : κ) (v : ν) (m : KeyMap κ ν) :
    (emplace k v m).find a = (m.find a).or (if k = a then some v else none) := by
  by_cases hk : k ∈ m
  · obtain ⟨w, hw⟩ := Option.isSome_iff_exists.mp (find_isSome.mpr hk)
    by_cases ha : k = a
    · subst a
      simp [emplace, hk, hw]
    · simp [emplace, hk, ha]
  · by_cases ha : k = a
    · subst a
      simp [emplace, hk, find_eq_none.mpr hk]
    · simp [emplace, hk, ha, find_store_ne m (Ne.symm ha)]

/-- Emplace every value of a list, in order, under the key it carries. -/
def indexBy (key : ν → κ) (l : List ν) (m : KeyMap κ ν) : KeyMap κ ν :=
  l.foldl (fun m v => emplace (key v) v m) m

@[simp] theorem indexBy_nil (key : ν → κ) (m : KeyMap κ ν) : indexBy key [] m = m := rfl

theorem indexBy_cons (key : ν → κ) (v : ν) (l : List ν) (m : KeyMap κ ν) :
    indexBy key (v :: l) m = indexBy key l (emplace (key v) v m) := rfl

theorem indexBy_append (key : ν → κ) (l₁ l₂ : List ν) (m : KeyMap κ ν) :
    indexBy key (l₁ ++ l₂) m = indexBy key l₂ (indexBy key l₁ m) := by
  simp [indexBy]

/-- An earlier binding survives; otherwise the first value with the key is found. -/
theorem find_indexBy (key : ν → κ) (l : List ν) (m : KeyMap κ ν) (a : κ) :
    (indexBy key l m).find a = (m.find a).or (l.find? fun v => key v = a) := by
  induction l generalizing m with
  | nil => simp
  | cons v l ih =>
      rw [indexBy_cons, ih, find_emplace, Option.or_assoc]
      by_cases hv : key v = a <;> simp [hv]

theorem find_indexBy_empty (key : ν → κ) (l : List ν) (a : κ) :
    (indexBy key l ∅).find a = l.find? fun v => key v = a := by
  simp [find_indexBy]

/-- Every value of the map is stored under its own key. -/
def SelfKeyed (key : ν → κ) (m : KeyMap κ ν) : Prop :=
  ∀ a v, m.find a = some v → key v = a

theorem selfKeyed_empty (key : ν → κ) : SelfKeyed key (∅ : KeyMap κ ν) := by
  intro a v h
  simp at h

theorem SelfKeyed.indexBy {key : ν → κ} {m : KeyMap κ ν} (h : SelfKeyed key m) (l : List ν) :
    SelfKeyed key (indexBy key l m) := by
  intro a v hv
  rw [find_indexBy, Option.or_eq_some_iff] at hv
  rcases hv with hv | ⟨_, hv⟩
  · exact h a v hv
  · simpa using List.find?_some hv

/-- A map whose values carry their own keys is the index of some list. -/
theorem SelfKeyed.exists_indexBy {key : ν → κ} {m : KeyMap κ ν} (h : SelfKeyed key m) :
    ∃ l, m = FirstWinsMap.indexBy key l ∅ := by
  induction m using AList.insertRec with
  | H0 => exact ⟨[], rfl⟩
  | IH k v m hk ih =>
      have hfind : ∀ a, KeyMap.find (AList.insert k v m) a =
          if a = k then some v else KeyMap.find m a := by
        intro a
        by_cases ha : a = k
        · subst ha
          rw [if_pos rfl]
          exact find_store_self m a v
        · rw [if_neg ha]
          exact find_store_ne m ha v
      have hv : key v = k := h k v (by rw [hfind, if_pos rfl])
      have hm : SelfKeyed key m := by
        intro a w hw
        refine h a w ?_
        rw [hfind, if_neg, hw]
        rintro rfl
        rw [find_eq_none.mpr hk] at hw
        cases hw
      obtain ⟨l, rfl⟩ := ih hm
      refine ⟨l ++ [v], ?_⟩
      rw [indexBy_append, indexBy_cons, indexBy_nil, emplace, hv, if_neg hk]
      rfl

/-- The stored keys, with the order in which they came into the map. -/
def keySet (m : KeyMap κ ν) : KeySet κ := ⟨m.keys, m.keys_nodup⟩

@[simp] theorem mem_keySet (m : KeyMap κ ν) (a : κ) : a ∈ keySet m ↔ (m.find a).isSome :=
  AList.mem_keys.symm.trans find_isSome.symm

omit [DecidableEq κ] in
@[simp] theorem keySet_empty : keySet (∅ : KeyMap κ ν) = ∅ := rfl

/-- A key is put into the set of keys exactly when it comes into the map. -/
theorem keySet_emplace (k : κ) (v : ν) (m : KeyMap κ ν) :
    keySet (emplace k v m) = insert k (keySet m) := by
  have hkeys : (emplace k v m).keys = m.keys.insert k := by
    by_cases hk : k ∈ m
    · rw [emplace, if_pos hk, List.insert_of_mem (AList.mem_keys.mp hk)]
    · rw [emplace, if_neg hk, List.insert_of_not_mem (mt AList.mem_keys.mpr hk), KeyMap.store,
        AList.keys_insert, List.erase_of_not_mem (mt AList.mem_keys.mpr hk)]
  simp only [keySet, hkeys]
  rfl

theorem keySet_indexBy (key : ν → κ) (l : List ν) (m : KeyMap κ ν) :
    keySet (indexBy key l m) = (keySet m).insertAll (l.map key) := by
  induction l generalizing m with
  | nil => rfl
  | cons v l ih =>
      rw [indexBy_cons, ih, keySet_emplace]
      rfl

/-- An empty map is one in which no key is found. -/
theorem eq_empty_iff (m : KeyMap κ ν) : m = ∅ ↔ ∀ a, m.find a = none := by
  constructor
  · rintro rfl a
    exact find_empty a
  · intro h
    apply AList.ext
    refine List.eq_nil_iff_forall_not_mem.mpr fun s hs => ?_
    have hk : s.1 ∈ m := AList.mem_keys.mpr (List.mem_map_of_mem (f := Sigma.fst) hs)
    exact find_eq_none.mp (h s.1) hk

theorem indexBy_empty_eq_empty_iff (key : ν → κ) (l : List ν) :
    indexBy key l (∅ : KeyMap κ ν) = ∅ ↔ l = [] := by
  simp only [eq_empty_iff, find_indexBy_empty]
  constructor
  · intro h
    refine List.eq_nil_iff_forall_not_mem.mpr fun v hv => ?_
    simpa using List.find?_eq_none.mp (h (key v)) v hv
  · rintro rfl a
    rfl

/-- One loop that collects the keys and fills the map computes both. -/
theorem foldl_keys_emplace (key : ν → κ) (l : List ν) (keys : KeySet κ) (m : KeyMap κ ν) :
    l.foldl (fun s v => (insert (key v) s.1, emplace (key v) v s.2)) (keys, m) =
      (keys.insertAll (l.map key), indexBy key l m) := by
  induction l generalizing keys m with
  | nil => rfl
  | cons v l ih =>
      rw [List.foldl_cons, ih]
      rfl

/-- A loop that reads the entries wanted and adds each value read to a state,
up to the first entry it cannot read, is reading all of them and then adding. -/
theorem foldlM_read {σ : Type*} (wanted : ι → Bool) (read : ι → Except ε ν) (add : σ → ν → σ)
    (l : List ι) (s : σ) :
    (l.foldlM (fun s i => if wanted i then (read i).map (add s) else .ok s) s) =
      ((l.filter wanted).mapM read).map fun vs => vs.foldl add s := by
  refine Eq.trans (List.foldlM_filter (p := wanted)
    (g := fun s i => (read i).map (add s)) (l := l)).symm ?_
  generalize l.filter wanted = l
  induction l generalizing s with
  | nil => rfl
  | cons i l ih =>
      rw [List.foldlM_cons, List.mapM_cons]
      cases hi : read i with
      | error e => rfl
      | ok v =>
          change List.foldlM _ (add s v) l = _
          rw [ih]
          cases hl : l.mapM read with
          | error e => rfl
          | ok vs => rfl

/-- A mapped result is the image of the result that was mapped. -/
theorem map_eq_ok_iff {f : ι → ν} {x : Except ε ι} {b : ν} :
    x.map f = .ok b ↔ ∃ a, x = .ok a ∧ f a = b := by
  cases x with
  | error e => simp [Except.map]
  | ok a => simp [Except.map]

theorem map_eq_error_iff {f : ι → ν} {x : Except ε ι} {e : ε} :
    x.map f = .error e ↔ x = .error e := by
  cases x with
  | error e' => simp [Except.map]
  | ok a => simp [Except.map]

theorem toOption_eq_some_iff {x : Except ε ι} {a : ι} : x.toOption = some a ↔ x = .ok a := by
  cases x with
  | error e => simp [Except.toOption]
  | ok b => simp [Except.toOption]

/-- Two steps fail at the first or at the second. -/
theorem bind_eq_error_iff {f : ι → Except ε ν} {x : Except ε ι} {e : ε} :
    x.bind f = .error e ↔ x = .error e ∨ ∃ a, x = .ok a ∧ f a = .error e := by
  cases x with
  | error e' => simp [Except.bind]
  | ok a => simp [Except.bind]

/-- Reading a list succeeds with the values its entries are read as, one by one. -/
theorem mapM_eq_ok_iff (read : ι → Except ε ν) (l : List ι) (vs : List ν) :
    l.mapM read = .ok vs ↔ List.Forall₂ (fun i v => read i = .ok v) l vs := by
  induction l generalizing vs with
  | nil => simp [pure, Except.pure, eq_comm]
  | cons i l ih =>
      rw [List.mapM_cons]
      cases hi : read i with
      | error e => simp [bind, Except.bind, List.forall₂_cons_left_iff, hi]
      | ok v =>
          simp only [List.forall₂_cons_left_iff, hi, Except.ok.injEq, ← ih]
          cases l.mapM read with
          | error e => simp [bind, Except.bind]
          | ok vs' => simp [bind, Except.bind, pure, Except.pure, eq_comm]

/-- Reading fails with the error of one of the entries. -/
theorem exists_of_mapM_eq_error {read : ι → Except ε ν} {l : List ι} {e : ε}
    (h : l.mapM read = .error e) : ∃ i ∈ l, read i = .error e := by
  induction l with
  | nil => simp [pure, Except.pure] at h
  | cons i l ih =>
      rw [List.mapM_cons] at h
      cases hi : read i with
      | error e' =>
          obtain rfl : e' = e := by simpa [hi, bind, Except.bind] using h
          exact ⟨i, List.mem_cons_self, hi⟩
      | ok v =>
          cases hl : l.mapM read with
          | error e' =>
              obtain rfl : e' = e := by simpa [hi, hl, bind, Except.bind] using h
              obtain ⟨j, hj, hread⟩ := ih hl
              exact ⟨j, List.mem_cons_of_mem i hj, hread⟩
          | ok vs => simp [hi, hl, bind, Except.bind, pure, Except.pure] at h

/-- Reading fails with the error of the first entry that cannot be read. -/
theorem mapM_eq_error_iff (read : ι → Except ε ν) (l : List ι) (e : ε) :
    l.mapM read = .error e ↔ ∃ before i after, l = before ++ i :: after ∧
      (∀ j ∈ before, ∃ v, read j = .ok v) ∧ read i = .error e := by
  induction l with
  | nil => simp [pure, Except.pure]
  | cons i l ih =>
      rw [List.mapM_cons]
      cases hi : read i with
      | error e' =>
          simp only [bind, Except.bind, Except.error.injEq]
          constructor
          · rintro rfl
            exact ⟨[], i, l, rfl, by simp, hi⟩
          · rintro ⟨before, j, after, hl, hbefore, hj⟩
            cases before with
            | nil =>
                obtain ⟨rfl, -⟩ := List.cons.inj hl
                exact Except.error.inj (hi.symm.trans hj)
            | cons k before =>
                obtain ⟨rfl, -⟩ := List.cons.inj hl
                obtain ⟨v, hv⟩ := hbefore i List.mem_cons_self
                rw [hi] at hv
                cases hv
      | ok v =>
          have htail : (do let vs ← l.mapM read; pure (v :: vs)) = .error e ↔
              l.mapM read = .error e := by
            cases l.mapM read <;> simp [bind, Except.bind, pure, Except.pure]
          refine htail.trans (ih.trans ⟨?_, ?_⟩)
          · rintro ⟨before, j, after, rfl, hbefore, hj⟩
            exact ⟨i :: before, j, after, rfl, List.forall_mem_cons.mpr ⟨⟨v, hi⟩, hbefore⟩, hj⟩
          · rintro ⟨before, j, after, hl, hbefore, hj⟩
            cases before with
            | nil =>
                obtain ⟨rfl, -⟩ := List.cons.inj hl
                rw [hi] at hj
                cases hj
            | cons k before =>
                obtain ⟨rfl, rfl⟩ := List.cons.inj hl
                exact ⟨before, j, after, rfl, (List.forall_mem_cons.mp hbefore).2, hj⟩

/-- A list can be read exactly when each of its entries can. -/
theorem exists_mapM_eq_ok_iff (read : ι → Except ε ν) (l : List ι) :
    (∃ vs, l.mapM read = .ok vs) ↔ ∀ i ∈ l, ∃ v, read i = .ok v := by
  simp only [mapM_eq_ok_iff]
  induction l with
  | nil => simp
  | cons i l ih =>
      rw [List.forall_mem_cons, ← ih]
      constructor
      · rintro ⟨vs, h⟩
        obtain ⟨v, vs', hv, hvs, -⟩ := List.forall₂_cons_left_iff.mp h
        exact ⟨⟨v, hv⟩, vs', hvs⟩
      · rintro ⟨⟨v, hv⟩, vs, hvs⟩
        exact ⟨v :: vs, List.Forall₂.cons hv hvs⟩

/-- When an entry shows the key of the value read from it, the first value with a
key is the value read from the first entry that shows this key. -/
theorem find?_of_mapM {read : ι → Except ε ν} {l : List ι} {vs : List ν}
    (h : l.mapM read = .ok vs) {key : ν → κ} {shown : ι → Option κ}
    (hshown : ∀ i v, read i = .ok v → shown i = some (key v)) (a : κ) (v : ν) :
    (vs.find? fun v => key v = a) = some v ↔
      ∃ i, (l.find? fun i => shown i = some a) = some i ∧ read i = .ok v := by
  rw [mapM_eq_ok_iff] at h
  induction h with
  | nil => simp
  | @cons i w l vs hi _ ih =>
      by_cases hw : key w = a
      · simp [hshown i w hi, hw, hi]
      · simp [hshown i w hi, hw, ih]

theorem find?_of_mapM_none {read : ι → Except ε ν} {l : List ι} {vs : List ν}
    (h : l.mapM read = .ok vs) {key : ν → κ} {shown : ι → Option κ}
    (hshown : ∀ i v, read i = .ok v → shown i = some (key v)) (a : κ) :
    (vs.find? fun v => key v = a) = none ↔ ∀ i ∈ l, shown i ≠ some a := by
  rw [mapM_eq_ok_iff] at h
  induction h with
  | nil => simp
  | @cons i w l vs hi _ ih =>
      by_cases hw : key w = a
      · simp [hshown i w hi, hw]
      · simpa [hshown i w hi, hw] using ih

end Foundation.FirstWinsMap
