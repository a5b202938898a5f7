/-
The entry list of a `data` value (`value_data_get`, `value_data_set` of
`value.c`): a singly linked list searched from its head, to whose front a new key
is added.

* `dataSet_keys_nodup` — a key never occurs twice;
* `dataGet_dataSet` — what is read after a set.
-/
import Jaguar.Bytes

namespace Jaguar

variable {α : Type*}

/-- The entries of a `data` value, head first. -/
abbrev DataList (α : Type*) := List (Text × α)

/-- `value_data_get`. -/
def dataGet (d : DataList α) (key : Text) : Option α :=
  match d with
  | [] => none
  | (k, v) :: rest => if k = key then some v else dataGet rest key

/-- The first entry with the key gets the value. -/
def dataReplace (d : DataList α) (key : Text) (val : α) : DataList α :=
  match d with
  | [] => []
  | (k, v) :: rest => if k = key then (k, val) :: rest else (k, v) :: dataReplace rest key val

/-- `value_data_set`. -/
def dataSet (d : DataList α) (key : Text) (val : α) : DataList α :=
  match dataGet d key with
  | some _ => dataReplace d key val
  | none => (key, val) :: d

theorem dataGet_dataReplace (d : DataList α) (key : Text) (val : α) (k : Text) :
    dataGet (dataReplace d key val) k
      = if k = key ∧ (dataGet d key).isSome then some val else dataGet d k := by
  induction d with
  | nil => simp [dataReplace, dataGet]
  | cons e d ih =>
    obtain ⟨k', v⟩ := e
    by_cases hk : k' = key
    · subst hk
      by_cases h : k' = k
      · subst h
        simp [dataReplace, dataGet]
      · simp [dataReplace, dataGet, h, Ne.symm h]
    · by_cases h : k' = k
      · subst h
        simp [dataReplace, dataGet, hk]
      · simp [dataReplace, dataGet, hk, h, ih]

/-- The last value set is the one read; other keys keep theirs. -/
theorem dataGet_dataSet (d : DataList α) (key : Text) (val : α) (k : Text) :
    dataGet (dataSet d key val) k = if k = key then some val else dataGet d k := by
  unfold dataSet
  cases h : dataGet d key with
  | none =>
    by_cases hk : k = key
    · simp [dataGet, hk]
    · simp [dataGet, hk, Ne.symm hk]
  | some v => simp [dataGet_dataReplace, h]

theorem dataReplace_keys (d : DataList α) (key : Text) (val : α) :
    (dataReplace d key val).map Prod.fst = d.map Prod.fst := by
  induction d with
  | nil => rfl
  | cons e d ih =>
    unfold dataReplace
    split <;> simp_all

theorem dataGet_eq_none {d : DataList α} {key : Text} :
    dataGet d key = none ↔ key ∉ d.map Prod.fst := by
  induction d with
  | nil => simp [dataGet]
  | cons e d ih =>
    unfold dataGet
    split <;> simp_all [eq_comm]

/-- **A key never occurs twice.** -/
theorem dataSet_keys_nodup {d : DataList α} (h : (d.map Prod.fst).Nodup) (key : Text) (val : α) :
    ((dataSet d key val).map Prod.fst).Nodup := by
  unfold dataSet
  split
  · rwa [dataReplace_keys]
  · next hnone => simpa using ⟨by simpa using dataGet_eq_none.mp hnone, h⟩

theorem mem_dataReplace {d : DataList α} {key : Text} {v : α} {e : Text × α}
    (h : e ∈ dataReplace d key v) : e ∈ d ∨ e = (key, v) := by
  induction d with
  | nil => cases h
  | cons e' d ih =>
    obtain ⟨k, w⟩ := e'
    rw [dataReplace] at h
    split at h
    · next hk =>
      rcases List.mem_cons.mp h with rfl | h
      · exact .inr (by rw [hk])
      · exact .inl (List.mem_cons_of_mem _ h)
    · rcases List.mem_cons.mp h with rfl | h
      · exact .inl List.mem_cons_self
      · exact (ih h).imp_left (List.mem_cons_of_mem _)

theorem mem_dataSet {d : DataList α} {key : Text} {v : α} {e : Text × α}
    (h : e ∈ dataSet d key v) : e ∈ d ∨ e = (key, v) := by
  rw [dataSet] at h
  split at h
  · exact mem_dataReplace h
  · exact (List.mem_cons.mp h).symm

theorem mem_of_dataGet {d : DataList α} {key : Text} {v : α} (h : dataGet d key = some v) :
    ∃ e ∈ d, e.2 = v := by
  induction d with
  | nil => cases h
  | cons e d ih =>
    obtain ⟨k, w⟩ := e
    rw [dataGet] at h
    split_ifs at h with hk
    · exact ⟨(k, w), List.mem_cons_self, Option.some.inj h⟩
    · obtain ⟨e, he, rfl⟩ := ih h
      exact ⟨e, List.mem_cons_of_mem _ he, rfl⟩

/-! ### Many entries -/

/-- The entries set one after the other. -/
def dataSetAll (d : DataList α) (es : List (Text × α)) : DataList α :=
  es.foldl (fun d e => dataSet d e.1 e.2) d

theorem dataSet_new {d : DataList α} {key : Text} (h : key ∉ d.map Prod.fst) (val : α) :
    dataSet d key val = (key, val) :: d := by
  rw [dataSet, dataGet_eq_none.mpr h]

/-- New keys are put in front. -/
theorem dataSetAll_new (d : DataList α) {es : List (Text × α)}
    (h : ((es.reverse ++ d).map Prod.fst).Nodup) : dataSetAll d es = es.reverse ++ d := by
  induction es generalizing d with
  | nil => rfl
  | cons e es ih =>
    have hreverse : (e :: es).reverse ++ d = es.reverse ++ e :: d := by simp
    have hnew : e.1 ∉ d.map Prod.fst := by
      rw [hreverse, List.map_append] at h
      exact (List.nodup_cons.mp (List.nodup_append.mp h).2.1).1
    show dataSetAll (dataSet d e.1 e.2) es = _
    rw [dataSet_new hnew, ih _ (hreverse ▸ h), hreverse]

theorem length_dataReplace (d : DataList α) (key : Text) (val : α) :
    (dataReplace d key val).length = d.length := by
  simpa using congrArg List.length (dataReplace_keys d key val)

theorem length_dataSetAll (d : DataList α) (es : List (Text × α)) :
    (dataSetAll d es).length ≤ d.length + es.length := by
  induction es generalizing d with
  | nil => exact Nat.le_refl _
  | cons e es ih =>
    have hset : (dataSet d e.1 e.2).length ≤ d.length + 1 := by
      unfold dataSet
      split
      · rw [length_dataReplace]
        exact Nat.le_succ _
      · exact Nat.le_refl _
    have := ih (dataSet d e.1 e.2)
    rw [List.length_cons]
    show (dataSetAll (dataSet d e.1 e.2) es).length ≤ _
    omega

/-- If no entry was lost, all keys were new. -/
theorem dataSetAll_full {d : DataList α} {es : List (Text × α)}
    (h : (dataSetAll d es).length = d.length + es.length) : dataSetAll d es = es.reverse ++ d := by
  induction es generalizing d with
  | nil => rfl
  | cons e es ih =>
    change (dataSetAll (dataSet d e.1 e.2) es).length = _ at h
    have hle := length_dataSetAll (dataSet d e.1 e.2) es
    rw [List.length_cons] at h
    cases hget : dataGet d e.1 with
    | some v =>
      have hset : (dataSet d e.1 e.2).length = d.length := by
        rw [dataSet, hget]
        exact length_dataReplace d e.1 e.2
      omega
    | none =>
      have hset : dataSet d e.1 e.2 = e :: d := by rw [dataSet, hget]
      rw [hset] at h
      show dataSetAll (dataSet d e.1 e.2) es = _
      rw [hset, ih (h.trans (by rw [List.length_cons]; omega))]
      simp

/-- **Of several entries with one key, the last one counts.** -/
theorem dataGet_dataSetAll (d : DataList α) (es : List (Text × α)) (k : Text) :
    dataGet (dataSetAll d es) k
      = ((es.reverse.find? fun e => e.1 = k).map Prod.snd).or (dataGet d k) := by
  induction es generalizing d with
  | nil => rfl
  | cons e es ih =>
    show dataGet (dataSetAll (dataSet d e.1 e.2) es) k = _
    rw [ih, dataGet_dataSet, List.reverse_cons, List.find?_append]
    cases es.reverse.find? fun e => e.1 = k with
    | some v => rfl
    | none =>
      by_cases hk : k = e.1
      · simp [hk]
      · simp [hk, Ne.symm hk]

end Jaguar
