/-
Data values through any sequence of `value_data_set` calls (`value.c`), and the two readers
that turn the entry list around: `json_stringify` and `iterate()`.

The entry list stands newest first and is overwritten in place.  What it stands for is the
list `inOrder` of the calls: every key where it was first set, with the value set last.

* `reverse_dataSetAll` — the entry list, turned around, is that list;
* `data_value_faithful` — **keys, lookups and both orders, for every sequence of calls**.
-/
import Jaguar.Interp

namespace Jaguar

/-! ### What a sequence of calls stands for -/

section Reference

variable {α : Type*}

/-- The value that was set last for a key. -/
def lastSet (es : List (Text × α)) (key : Text) : Option α :=
  match es with
  | [] => none
  | (k, v) :: es => (lastSet es key).or (if k = key then some v else none)

/-- The keys in the order in which they were first set, each with the value set last. -/
def inOrder (es : List (Text × α)) : List (Text × α) :=
  match es with
  | [] => []
  | (k, v) :: es => (k, (lastSet es k).getD v) :: (inOrder es).filter fun e => e.1 ≠ k

theorem dataGet_dataSetAll_lastSet (d : DataList α) (es : List (Text × α)) (key : Text) :
    dataGet (dataSetAll d es) key = (lastSet es key).or (dataGet d key) := by
  induction es generalizing d with
  | nil => rfl
  | cons e es ih =>
    obtain ⟨k, v⟩ := e
    show dataGet (dataSetAll (dataSet d k v) es) key = _
    rw [ih, dataGet_dataSet, lastSet, Option.or_assoc]
    by_cases hk : k = key
    · rw [if_pos hk.symm, if_pos hk, Option.some_or]
    · rw [if_neg (Ne.symm hk), if_neg hk, Option.none_or]

/-- The entries that are there keep their places and get the values set last for their
keys. -/
def withLast (d : DataList α) (es : List (Text × α)) : DataList α :=
  d.map fun e => (e.1, (lastSet es e.1).getD e.2)

theorem withLast_cons_of_not_mem {d : DataList α} {k : Text} (h : k ∉ d.map Prod.fst) (v : α)
    (es : List (Text × α)) : withLast d ((k, v) :: es) = withLast d es := by
  refine List.map_congr_left fun e he => ?_
  have hne : k ≠ e.1 := fun heq => h (heq ▸ List.mem_map_of_mem he)
  rw [lastSet, if_neg hne, Option.or_none]

theorem withLast_cons_of_mem {d : DataList α} {k : Text} (hd : (d.map Prod.fst).Nodup)
    (h : k ∈ d.map Prod.fst) (v : α) (es : List (Text × α)) :
    withLast d ((k, v) :: es) = withLast (dataReplace d k v) es := by
  induction d with
  | nil => rfl
  | cons e d ih =>
    obtain ⟨k', w⟩ := e
    rw [List.map_cons, List.nodup_cons] at hd
    rw [dataReplace]
    by_cases hk : k' = k
    · subst hk
      rw [if_pos rfl]
      have hhead : ((lastSet es k').or (some v)).getD w = (lastSet es k').getD v := by
        cases lastSet es k' <;> rfl
      have htail := withLast_cons_of_not_mem hd.1 v es
      rw [withLast, List.map_cons, ← withLast, htail, lastSet, if_pos rfl, hhead]
      rfl
    · rw [if_neg hk]
      have hmem : k ∈ d.map Prod.fst := by
        rcases List.mem_cons.mp h with heq | hmem
        · exact absurd heq.symm hk
        · exact hmem
      rw [withLast, List.map_cons, ← withLast, ih hd.2 hmem, lastSet, if_neg (Ne.symm hk),
        Option.or_none]
      rfl

/-- **The entry list, turned around.** -/
theorem reverse_dataSetAll {d : DataList α} (hd : (d.map Prod.fst).Nodup)
    (es : List (Text × α)) : (dataSetAll d es).reverse
      = (withLast d es).reverse ++ (inOrder es).filter fun e => e.1 ∉ d.map Prod.fst := by
  induction es generalizing d with
  | nil =>
    have hsame : withLast d [] = d := List.map_id _
    rw [hsame]
    exact (List.append_nil _).symm
  | cons e es ih =>
    obtain ⟨k, v⟩ := e
    show (dataSetAll (dataSet d k v) es).reverse = _
    rw [ih (dataSet_keys_nodup hd k v), inOrder]
    by_cases hk : k ∈ d.map Prod.fst
    · have hset : dataSet d k v = dataReplace d k v := by
        cases hget : dataGet d k with
        | none => exact absurd hk (dataGet_eq_none.mp hget)
        | some w => rw [dataSet, hget]
      have hfilter : ((inOrder es).filter fun e => e.1 ≠ k).filter (fun e => e.1 ∉ d.map Prod.fst)
          = (inOrder es).filter fun e => e.1 ∉ d.map Prod.fst := by
        rw [List.filter_filter]
        refine List.filter_congr fun e _ => ?_
        by_cases he : e.1 ∈ d.map Prod.fst
        · simp [he]
        · have hne : e.1 ≠ k := fun heq => he (heq ▸ hk)
          simp [he, hne]
      rw [hset, withLast_cons_of_mem hd hk, dataReplace_keys,
        List.filter_cons_of_neg (by simpa using hk), hfilter]
    · rw [dataSet_new hk, withLast_cons_of_not_mem hk, List.filter_cons_of_pos (by simpa using hk)]
      have hfilter : (inOrder es).filter (fun e => e.1 ∉ ((k, v) :: d).map Prod.fst)
          = ((inOrder es).filter fun e => e.1 ≠ k).filter fun e => e.1 ∉ d.map Prod.fst := by
        rw [List.filter_filter]
        refine List.filter_congr fun e _ => ?_
        by_cases he : e.1 = k
        · simp [he]
        · simp [he]
      rw [hfilter, withLast, List.map_cons, ← withLast, List.reverse_cons, List.append_assoc]
      rfl

end Reference

/-! ### On the heap -/

/-- The calls, one after the other. -/
def Heap.dataSetAll (h : Heap) (d : ℕ) (es : List (Text × Value)) : Heap :=
  es.foldl (fun h e => h.dataSet d e.1 e.2) h

theorem Heap.data_dataSetAll {h : Heap} {d : ℕ} (hd : d < h.datas.length)
    (es : List (Text × Value)) :
    (h.dataSetAll d es).data d = Jaguar.dataSetAll (h.data d) es := by
  induction es generalizing h with
  | nil => rfl
  | cons e es ih =>
    have hlength : d < (h.dataSet d e.1 e.2).datas.length := by
      show d < (h.datas.modify d _).length
      rw [List.length_modify]
      exact hd
    show ((h.dataSet d e.1 e.2).dataSetAll d es).data d = _
    rw [ih hlength, h.data_dataSet hd, if_pos rfl]
    rfl

/-- The data value at `d` stands for these calls. -/
structure DataFaithful (h : Heap) (d : ℕ) (es : List (Text × Value)) : Prop where
  nodup : ((h.data d).map Prod.fst).Nodup
  get : ∀ key, dataGet (h.data d) key = lastSet es key
  stringify : ∀ n, (h.toJson (n + 1) (.data d)).map jsonStringify
    = ((inOrder es).mapM fun e => (h.toJson n e.2).map fun v => jsonEntryText (e.1, v)).map
      fun texts => 123 :: (commaSep texts ++ [125])
  iterate : ∀ {ω : Type} (R : Evaluator ω) (n : ℕ) (var : Text) (body : Stmt) (env : Env)
    (line : ℕ) (s : Machine ω), s.heap = h → Jaguar.iterate R n (.data d) var body env line s
      = overValues R var body env ((inOrder es).map Prod.snd) s

/-- The values in the other order, if all of them are there. -/
theorem mapM_reverse_option {α β : Type*} (f : α → Option β) (l : List α) :
    l.reverse.mapM f = (l.mapM f).map List.reverse := by
  induction l with
  | nil => rfl
  | cons a l ih =>
    rw [List.reverse_cons, List.mapM_append, ih, List.mapM_cons, List.mapM_cons]
    cases f a with
    | none => cases l.mapM f <;> rfl
    | some b =>
      cases l.mapM f with
      | none => rfl
      | some bs => simp

theorem mapM_map_option {α β γ : Type*} (f : α → Option β) (g : β → γ) (l : List α) :
    l.mapM (fun a => (f a).map g) = (l.mapM f).map (List.map g) := by
  induction l with
  | nil => rfl
  | cons a l ih =>
    rw [List.mapM_cons, List.mapM_cons, ih]
    cases f a with
    | none => rfl
    | some b => cases l.mapM f <;> rfl

/-- **Data values.**  After every sequence of `value_data_set` calls on a new data value no
key occurs twice, a lookup finds the value set last, and `json_stringify` and `iterate()`
go through the keys in the order in which they were first set. -/
theorem data_value_faithful (h : Heap) (es : List (Text × Value)) :
    DataFaithful ((h.addData []).dataSetAll h.datas.length es) h.datas.length es := by
  have hlength : h.datas.length < (h.addData []).datas.length := by
    show h.datas.length < (h.datas ++ [[]]).length
    simp
  have hnew : (h.addData []).data h.datas.length = [] := by
    show (h.datas ++ [[]]).getD h.datas.length [] = []
    simp [List.getD_eq_getElem?_getD]
  have hdata := Heap.data_dataSetAll hlength es
  rw [hnew] at hdata
  set g := (h.addData []).dataSetAll h.datas.length es with hg
  have hreverse : (g.data h.datas.length).reverse = inOrder es := by
    rw [hdata, reverse_dataSetAll (d := ([] : DataList Value)) List.nodup_nil es]
    simp [withLast]
  constructor
  · rw [hdata, Jaguar.dataSetAll]
    refine List.foldlRecOn (motive := fun d : DataList Value => (d.map Prod.fst).Nodup) es _
      List.nodup_nil fun d hd e _ => dataSet_keys_nodup hd e.1 e.2
  · intro key
    rw [hdata, dataGet_dataSetAll_lastSet]
    exact Option.or_none
  · intro n
    have hentry : (fun e : Text × Value => (g.toJson n e.2).map fun v => jsonEntryText (e.1, v))
        = fun e => ((g.toJson n e.2).map (e.1, ·)).map jsonEntryText := by
      funext e
      rw [Option.map_map]
      rfl
    rw [← hreverse, mapM_reverse_option, hentry, mapM_map_option, Heap.toJson]
    cases (g.data h.datas.length).mapM fun e => (g.toJson n e.2).map (e.1, ·) with
    | none => rfl
    | some entries =>
      show some (123 :: (commaSep (jsonEntryTexts entries).reverse ++ [125])) = _
      rw [jsonEntryTexts_eq]
      rfl
  · intro ω R n var body env line s hs
    show ((Exec.read fun s => (s.heap.data h.datas.length).reverse.map Prod.snd) >>=
      overValues R var body env) s = _
    rw [← hreverse, ← hs]
    rfl

end Jaguar
