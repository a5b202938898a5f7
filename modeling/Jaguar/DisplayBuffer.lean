/-
The block of memory in which `value_to_display_string` builds the text of a list or a data
value (`value.c`).

Each of the two branches keeps a capacity and a counter, makes room once for every item, and
writes the closing bracket without asking. A nested value is built in a block of its own.

* `listOps`, `dataOps` — the statements of the two branches, item by item;
* `Heap.render` — `value_to_display_string` with all the blocks it works in;
* `render_text` — its text is the one of `displayString`;
* `sound_listOps`, `sound_dataOps` — the loop invariant is two bytes of room;
* `displayString_blocks` — **every append of every block ends below the capacity**;
* `listOps_bracket_uncounted` — the closing bracket is not counted.
-/
import Jaguar.CountedBuffer
import Jaguar.DataOrder

namespace Jaguar

open Buffer

/-! ### The statements -/

/-- `malloc(128)`, with `out[0] = '\0'`. -/
def mallocBuffer : Buffer UInt8 := ⟨[], 128, 0, by decide⟩

/-- `if (!first) { strcat(out, ", "); len += 2; }` -/
def separatorOps (first : Bool) : List (BufferOp UInt8) :=
  if first then [] else [.strcat (txt ", "), .count 2]

/-- One turn of the loop for `V_LIST`. -/
def listItemOps (first : Bool) (item : Text) : List (BufferOp UInt8) :=
  .reserve (item.length + 4) :: (separatorOps first ++ [.strcat item, .count item.length])

def listItemsOps : Bool → List Text → List (BufferOp UInt8)
  | _, [] => []
  | first, item :: items => listItemOps first item ++ listItemsOps false items

/-- The branch for `V_LIST`. -/
def listOps (items : List Text) : List (BufferOp UInt8) :=
  [.strcat (txt "["), .count 1] ++ (listItemsOps true items ++ [.strcat (txt "]")])

/-- One turn of the loop for `V_DATA`. -/
def dataItemOps (first : Bool) (key item : Text) : List (BufferOp UInt8) :=
  .reserve (item.length + key.length + 8) :: (separatorOps first ++
    [.strcat (txt "\""), .strcat key, .strcat (txt "\": "), .strcat item,
      .count (item.length + key.length + 4)])

def dataItemsOps : Bool → List (Text × Text) → List (BufferOp UInt8)
  | _, [] => []
  | first, e :: es => dataItemOps first e.1 e.2 ++ dataItemsOps false es

/-- The branch for `V_DATA`. -/
def dataOps (es : List (Text × Text)) : List (BufferOp UInt8) :=
  [.strcat (txt "\x7b"), .count 1] ++ (dataItemsOps true es ++ [.strcat (txt "\x7d")])

/-- A text, and the statements that ran on each of the blocks it was built with. -/
structure Rendering where
  text : Text
  blocks : List (List (BufferOp UInt8))

/-- `value_to_display_string`, for values nested at most `n` deep. -/
def Heap.render (h : Heap) : ℕ → Value → Option Rendering
  | 0, _ => none
  | n + 1, v =>
    match v with
    | .list l => do
      let items ← h.itemsFrom n (h.listHead l)
      let rs ← items.mapM (h.render n)
      let ops := listOps (rs.map Rendering.text)
      some ⟨(mallocBuffer.run ops).text, rs.flatMap Rendering.blocks ++ [ops]⟩
    | .data d => do
      let rs ← (h.data d).mapM fun e => (h.render n e.2).map (e.1, ·)
      let ops := dataOps (rs.map fun r => (r.1, r.2.text))
      some ⟨(mallocBuffer.run ops).text, (rs.flatMap fun r => r.2.blocks) ++ [ops]⟩
    | .inst i => do
      let inst ← h.instances[i]?
      let ci ← h.classes[inst.classInfo]?
      let fields ← h.render n (.data inst.fields)
      some ⟨ci.name ++ 32 :: fields.text, fields.blocks⟩
    | v => (h.displayString (n + 1) v).map (⟨·, []⟩)

/-! ### One turn -/

/-- What a turn writes in front of an item. -/
def separator (first : Bool) : Text := if first then [] else txt ", "

theorem separator_length_le (first : Bool) : (separator first).length ≤ 2 := by
  cases first <;> decide

theorem run_separatorOps (b : Buffer UInt8) (first : Bool) :
    b.run (separatorOps first) = { b with
      text := b.text ++ separator first
      len := b.len + (separator first).length } := by
  cases first with
  | true =>
    show b = { b with text := b.text ++ [], len := b.len + 0 }
    rw [List.append_nil]
    rfl
  | false => rfl

theorem sound_separatorOps {b : Buffer UInt8} (first : Bool) (hb : Ready 3 b) :
    b.Sound (separatorOps first) := by
  obtain ⟨hcounted, hroom⟩ := hb
  have hlen : b.len = b.text.length := hcounted
  cases first with
  | true => exact sound_nil b
  | false =>
    refine sound_strcat ?_ (sound_count ?_ (sound_nil _))
    · show b.text.length + 2 + 1 ≤ b.cap
      omega
    · show b.len + 2 = (b.text ++ txt ", ").length
      rw [List.length_append, hlen]
      rfl

/-- The first statement of a turn makes the room that it has asked for. -/
theorem ready_reserve {b : Buffer UInt8} (hb : b.Counted) (need : ℕ) :
    Ready need (b.reserve need) := by
  obtain ⟨htext, hlen, hcap⟩ := b.reserve_spec need
  refine ⟨?_, by rw [hlen]; exact hcap⟩
  show (b.reserve need).len = (b.reserve need).text.length
  rw [htext, hlen]
  exact hb

/-- A separator takes two bytes of the room at most. -/
theorem ready_separatorOps {b : Buffer UInt8} {room : ℕ} (first : Bool) (hb : Ready (room + 2) b) :
    Ready room (b.run (separatorOps first)) := by
  obtain ⟨hcounted, hroom⟩ := hb
  have hlen : b.len = b.text.length := hcounted
  have hle := separator_length_le first
  rw [run_separatorOps]
  constructor
  · show b.len + _ = (b.text ++ separator first).length
    rw [List.length_append, hlen]
  · show b.len + (separator first).length + room ≤ b.cap
    omega

/-- **One turn of the list's loop**: the item and its separator fit, and the bracket and the
terminator still do behind them. -/
theorem listItemOps_spec {b : Buffer UInt8} (first : Bool) (item : Text) (hb : Ready 2 b) :
    b.Sound (listItemOps first item) ∧ Ready 2 (b.run (listItemOps first item)) ∧
      (b.run (listItemOps first item)).text = b.text ++ (separator first ++ item) := by
  set grown := b.reserve (item.length + 4) with hgrown
  have hready : Ready (item.length + 2 + 2) grown := ready_reserve hb.counted _
  have htext : grown.text = b.text := (b.reserve_spec _).1
  set sep := grown.run (separatorOps first) with hsep
  obtain ⟨hcounted, hroom⟩ : Ready (item.length + 2) sep := ready_separatorOps first hready
  have hlen : sep.len = sep.text.length := hcounted
  have hseptext : sep.text = b.text ++ separator first := by
    rw [hsep, run_separatorOps, ← htext]
  have hrun : b.run (listItemOps first item)
      = { sep with text := sep.text ++ item, len := sep.len + item.length } := by
    show grown.run (separatorOps first ++ _) = _
    rw [run_append]
    rfl
  rw [hrun]
  refine ⟨?_, ⟨?_, ?_⟩, ?_⟩
  · refine sound_reserve hb.counted (Sound.append ?_ ?_)
    · exact sound_separatorOps first (hready.mono (by omega))
    · refine sound_strcat ?_ (sound_count ?_ (sound_nil _))
      · show sep.text.length + item.length + 1 ≤ sep.cap
        omega
      · show sep.len + item.length = (sep.text ++ item).length
        rw [List.length_append, hlen]
  · show sep.len + item.length = (sep.text ++ item).length
    rw [List.length_append, hlen]
  · show sep.len + item.length + 2 ≤ sep.cap
    omega
  · show sep.text ++ item = _
    rw [hseptext, List.append_assoc]

/-- **One turn of the loop over the entries.** Here nothing is left of the room. -/
theorem dataItemOps_spec {b : Buffer UInt8} (first : Bool) (key item : Text) (hb : Ready 2 b) :
    b.Sound (dataItemOps first key item) ∧ Ready 2 (b.run (dataItemOps first key item)) ∧
      (b.run (dataItemOps first key item)).text
        = b.text ++ (separator first ++ 34 :: (key ++ txt "\": " ++ item)) := by
  set grown := b.reserve (item.length + key.length + 8) with hgrown
  have hready : Ready (item.length + key.length + 6 + 2) grown := ready_reserve hb.counted _
  have htext : grown.text = b.text := (b.reserve_spec _).1
  set sep := grown.run (separatorOps first) with hsep
  obtain ⟨hcounted, hroom⟩ : Ready (item.length + key.length + 6) sep :=
    ready_separatorOps first hready
  have hlen : sep.len = sep.text.length := hcounted
  have hseptext : sep.text = b.text ++ separator first := by
    rw [hsep, run_separatorOps, ← htext]
  have hrun : b.run (dataItemOps first key item)
      = { sep with
          text := sep.text ++ txt "\"" ++ key ++ txt "\": " ++ item
          len := sep.len + (item.length + key.length + 4) } := by
    show grown.run (separatorOps first ++ _) = _
    rw [run_append]
    rfl
  have hquote : (txt "\"").length = 1 := rfl
  have hcolon : (txt "\": ").length = 3 := rfl
  have htotal : (sep.text ++ txt "\"" ++ key ++ txt "\": " ++ item).length
      = sep.len + (item.length + key.length + 4) := by
    simp only [List.length_append, hquote, hcolon, hlen]
    omega
  have hrest : sep.Sound [.strcat (txt "\""), .strcat key, .strcat (txt "\": "), .strcat item,
      .count (item.length + key.length + 4)] := by
    refine sound_strcat ?_ (sound_strcat ?_ (sound_strcat ?_ (sound_strcat ?_
      (sound_count htotal.symm (sound_nil _)))))
    all_goals
      simp only [List.length_append, hquote, hcolon]
      omega
  rw [hrun]
  refine ⟨?_, ⟨?_, ?_⟩, ?_⟩
  · refine sound_reserve hb.counted (Sound.append ?_ ?_)
    · exact sound_separatorOps first (hready.mono (by omega))
    · exact hrest
  · exact htotal.symm
  · show sep.len + (item.length + key.length + 4) + 2 ≤ sep.cap
    omega
  · show sep.text ++ txt "\"" ++ key ++ txt "\": " ++ item = _
    rw [hseptext]
    simp only [List.append_assoc]
    rfl

/-! ### The loops -/

/-- The pieces that the turns of a loop write. -/
def separated : Bool → List Text → Text
  | _, [] => []
  | first, piece :: pieces => separator first ++ piece ++ separated false pieces

theorem separated_false (pieces : List Text) :
    separated false pieces = (pieces.map (txt ", " ++ ·)).flatten := by
  induction pieces with
  | nil => rfl
  | cons piece pieces ih =>
    rw [separated, ih]
    rfl

theorem separated_true (pieces : List Text) :
    separated true pieces = (txt ", ").intercalate pieces := by
  cases pieces with
  | nil => rfl
  | cons piece pieces =>
    show piece ++ separated false pieces = _
    rw [separated_false]
    induction pieces generalizing piece with
    | nil => simp [List.intercalate]
    | cons next pieces ih =>
      have := ih next
      simp only [List.intercalate, List.intersperse, List.map_cons, List.flatten_cons] at this ⊢
      rw [← this, List.append_assoc]

theorem listItemsOps_spec {b : Buffer UInt8} (first : Bool) (items : List Text) (hb : Ready 2 b) :
    b.Sound (listItemsOps first items) ∧ Ready 2 (b.run (listItemsOps first items)) ∧
      (b.run (listItemsOps first items)).text = b.text ++ separated first items := by
  induction items generalizing b first with
  | nil => exact ⟨sound_nil b, hb, (List.append_nil _).symm⟩
  | cons item items ih =>
    obtain ⟨hsound, hready, htext⟩ := listItemOps_spec first item hb
    obtain ⟨hsound', hready', htext'⟩ := ih false hready
    refine ⟨hsound.append hsound', ?_, ?_⟩
    · rw [listItemsOps, run_append]
      exact hready'
    · rw [listItemsOps, run_append, htext', htext, List.append_assoc]
      rfl

/-- The text of an entry. -/
def entryText (e : Text × Text) : Text := 34 :: (e.1 ++ txt "\": " ++ e.2)

theorem dataItemsOps_spec {b : Buffer UInt8} (first : Bool) (es : List (Text × Text))
    (hb : Ready 2 b) :
    b.Sound (dataItemsOps first es) ∧ Ready 2 (b.run (dataItemsOps first es)) ∧
      (b.run (dataItemsOps first es)).text = b.text ++ separated first (es.map entryText) := by
  induction es generalizing b first with
  | nil => exact ⟨sound_nil b, hb, (List.append_nil _).symm⟩
  | cons e es ih =>
    obtain ⟨hsound, hready, htext⟩ := dataItemOps_spec first e.1 e.2 hb
    obtain ⟨hsound', hready', htext'⟩ := ih false hready
    refine ⟨hsound.append hsound', ?_, ?_⟩
    · rw [dataItemsOps, run_append]
      exact hready'
    · rw [dataItemsOps, run_append, htext', htext, List.append_assoc]
      rfl

/-- A loop between two brackets: the closing one has the room that the invariant keeps. -/
theorem bracketed_spec (opening closing : UInt8) (turns : List (BufferOp UInt8)) (text : Text)
    (hturns : ∀ b : Buffer UInt8, Ready 2 b →
      b.Sound turns ∧ Ready 2 (b.run turns) ∧ (b.run turns).text = b.text ++ text) :
    mallocBuffer.Sound ([.strcat [opening], .count 1] ++ (turns ++ [.strcat [closing]])) ∧
      (mallocBuffer.run ([.strcat [opening], .count 1] ++ (turns ++ [.strcat [closing]]))).text
        = opening :: (text ++ [closing]) := by
  have hstart : Ready 2 (mallocBuffer.run [.strcat [opening], .count 1]) := by
    constructor
    · show 0 + 1 = ([] ++ [opening]).length
      rfl
    · show 0 + 1 + 2 ≤ 128
      decide
  obtain ⟨hsound, ⟨hcounted, hroom⟩, htext⟩ := hturns _ hstart
  have hlen : ((mallocBuffer.run [.strcat [opening], .count 1]).run turns).len
      = ((mallocBuffer.run [.strcat [opening], .count 1]).run turns).text.length := hcounted
  constructor
  · refine Sound.append ?_ (Sound.append hsound (sound_strcat ?_ (sound_nil _)))
    · refine sound_strcat ?_ (sound_count rfl (sound_nil _))
      show 0 + 1 + 1 ≤ 128
      decide
    · show _ + 1 + 1 ≤ _
      omega
  · rw [run_append, run_append]
    show ((mallocBuffer.run [.strcat [opening], .count 1]).run turns).text ++ [closing] = _
    rw [htext]
    rfl

theorem sound_listOps (items : List Text) : mallocBuffer.Sound (listOps items) ∧
    (mallocBuffer.run (listOps items)).text = 91 :: ((txt ", ").intercalate items ++ [93]) := by
  rw [← separated_true]
  exact bracketed_spec 91 93 _ _ fun b hb => listItemsOps_spec true items hb

theorem sound_dataOps (es : List (Text × Text)) : mallocBuffer.Sound (dataOps es) ∧
    (mallocBuffer.run (dataOps es)).text
      = 123 :: ((txt ", ").intercalate (es.map entryText) ++ [125]) := by
  rw [← separated_true]
  exact bracketed_spec 123 125 _ _ fun b hb => dataItemsOps_spec true es hb

/-! ### All blocks of a value -/

/-- **The text is the one that the values' own recursion describes.** -/
theorem render_text (h : Heap) (n : ℕ) (v : Value) :
    (h.render n v).map Rendering.text = h.displayString n v := by
  have hleaf : ∀ text : Option Text,
      (text.map fun t => Rendering.mk t []).map Rendering.text = text := by
    intro text
    cases text <;> rfl
  induction n generalizing v with
  | zero => rfl
  | succ n ih =>
    cases v with
    | list l =>
      rw [Heap.render, Heap.displayString]
      cases h.itemsFrom n (h.listHead l) with
      | none => rfl
      | some items =>
        have hitems : items.mapM (h.displayString n)
            = (items.mapM (h.render n)).map (List.map Rendering.text) := by
          rw [← mapM_map_option]
          exact congrArg (items.mapM ·) (funext fun v => (ih v).symm)
        show Option.map Rendering.text ((items.mapM (h.render n)).bind _)
          = (items.mapM (h.displayString n)).bind _
        rw [hitems]
        cases items.mapM (h.render n) with
        | none => rfl
        | some rs => exact congrArg some (sound_listOps _).2
    | data d =>
      rw [Heap.render, Heap.displayString]
      have hentries : ((h.data d).mapM fun e => do
            let text ← h.displayString n e.2
            some (34 :: (e.1 ++ txt "\": " ++ text)))
          = ((h.data d).mapM fun e => (h.render n e.2).map (e.1, ·)).map
            (List.map fun r => entryText (r.1, r.2.text)) := by
        rw [← mapM_map_option]
        refine congrArg ((h.data d).mapM ·) (funext fun e => ?_)
        rw [← ih e.2]
        cases h.render n e.2 <;> rfl
      rw [hentries]
      cases (h.data d).mapM fun e => (h.render n e.2).map (e.1, ·) with
      | none => rfl
      | some rs =>
        refine congrArg some ((sound_dataOps _).2.trans ?_)
        rw [List.map_map]
        rfl
    | inst i =>
      rw [Heap.render, Heap.displayString]
      cases h.instances[i]? with
      | none => rfl
      | some inst =>
        show Option.map Rendering.text ((h.classes[inst.classInfo]?).bind _)
          = (h.classes[inst.classInfo]?).bind _
        cases h.classes[inst.classInfo]? with
        | none => rfl
        | some ci =>
          show Option.map Rendering.text ((h.render n (.data inst.fields)).bind _)
            = (h.displayString n (.data inst.fields)).bind _
          rw [← ih (.data inst.fields)]
          cases h.render n (.data inst.fields) <;> rfl
    | _ =>
      rw [Heap.render]
      · exact hleaf _
      all_goals
        intros
        contradiction

theorem exists_of_mem_mapM {β γ : Type*} {f : β → Option γ} {l : List β} {cs : List γ}
    (h : l.mapM f = some cs) {c : γ} (hc : c ∈ cs) : ∃ b ∈ l, f b = some c := by
  induction l generalizing cs with
  | nil =>
    obtain rfl := Option.some.inj h
    exact absurd hc List.not_mem_nil
  | cons b l ih =>
    rw [List.mapM_cons] at h
    obtain ⟨c', hb, h⟩ := Option.bind_eq_some_iff.mp h
    obtain ⟨cs', hl, h⟩ := Option.bind_eq_some_iff.mp h
    obtain rfl := Option.some.inj h
    rcases List.mem_cons.mp hc with rfl | hc
    · exact ⟨b, List.mem_cons_self, hb⟩
    · obtain ⟨b', hb', heq⟩ := ih hl hc
      exact ⟨b', List.mem_cons_of_mem b hb', heq⟩

/-- The blocks of the items, and the value's own. -/
theorem render_sound {h : Heap} {n : ℕ} {v : Value} {r : Rendering} (hr : h.render n v = some r) :
    ∀ ops ∈ r.blocks, mallocBuffer.Sound ops := by
  induction n generalizing v r with
  | zero => cases hr
  | succ n ih =>
    have hleaf : (h.displayString (n + 1) v).map (⟨·, []⟩) = some r → r.blocks = [] := by
      intro hr
      obtain ⟨text, -, rfl⟩ := Option.map_eq_some_iff.mp hr
      rfl
    intro ops hops
    cases v with
    | list l =>
      rw [Heap.render] at hr
      obtain ⟨items, -, hr⟩ := Option.bind_eq_some_iff.mp hr
      obtain ⟨rs, hrs, hr⟩ := Option.bind_eq_some_iff.mp hr
      obtain rfl := Option.some.inj hr
      rcases List.mem_append.mp hops with hops | hops
      · obtain ⟨r, hmem, hops⟩ := List.mem_flatMap.mp hops
        obtain ⟨item, -, hitem⟩ := exists_of_mem_mapM hrs hmem
        exact ih hitem ops hops
      · obtain rfl := List.mem_singleton.mp hops
        exact (sound_listOps _).1
    | data d =>
      rw [Heap.render] at hr
      obtain ⟨rs, hrs, hr⟩ := Option.bind_eq_some_iff.mp hr
      obtain rfl := Option.some.inj hr
      rcases List.mem_append.mp hops with hops | hops
      · obtain ⟨r, hmem, hops⟩ := List.mem_flatMap.mp hops
        obtain ⟨e, -, he⟩ := exists_of_mem_mapM hrs hmem
        obtain ⟨r', hr', rfl⟩ := Option.map_eq_some_iff.mp he
        exact ih hr' ops hops
      · obtain rfl := List.mem_singleton.mp hops
        exact (sound_dataOps _).1
    | inst i =>
      rw [Heap.render] at hr
      obtain ⟨inst, -, hr⟩ := Option.bind_eq_some_iff.mp hr
      obtain ⟨ci, -, hr⟩ := Option.bind_eq_some_iff.mp hr
      obtain ⟨fields, hfields, hr⟩ := Option.bind_eq_some_iff.mp hr
      obtain rfl := Option.some.inj hr
      exact ih hfields ops hops
    | _ =>
      rw [hleaf hr] at hops
      exact absurd hops List.not_mem_nil

/-- **The blocks of `value_to_display_string`.** For every finitely nested value the text is
built so that, on the block of the value and on that of every list and data value in it, each
append ends with its terminator below the capacity, and the counter is the length of the text
behind every statement that is not itself an append. -/
theorem displayString_blocks (h : Heap) (n : ℕ) (v : Value) :
    (h.render n v).map Rendering.text = h.displayString n v ∧
      ∀ r, h.render n v = some r → ∀ ops ∈ r.blocks, mallocBuffer.Sound ops :=
  ⟨render_text h n v, fun _ hr => render_sound hr⟩

/-- The empty list: its text is `[]`, and the counter stays at 1. -/
theorem listOps_bracket_uncounted :
    ∃ (h : Heap) (r : Rendering), h.render 1 (.list 0) = some r ∧ r.text = txt "[]" ∧
      ∃ ops ∈ r.blocks, (mallocBuffer.run ops).text = r.text ∧ (mallocBuffer.run ops).len = 1 ∧
        ¬ (mallocBuffer.run ops).Counted := by
  refine ⟨⟨[], [none], [], [], [], [], [], []⟩, _, rfl, rfl, listOps [], List.mem_singleton_self _,
    rfl, rfl, ?_⟩
  intro h
  unfold Counted at h
  exact absurd h (by decide)

end Jaguar
