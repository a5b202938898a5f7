/-
The close callback of a WebSocket connection: `ws_conn_entry` (`ws.c`) behind the handshake.

Jaguar code is whatever it is: at every invocation, and at every wait of the connection's
coroutine, it may call any methods of the socket value.  What has happened is kept in a log.

* `serve_spec` — the loop over a stream of frames: `on_close` is the callback registered
  last, and `closed` is set by `ws.close()` or by a Close frame only;
* `close_callback_once_iff` — the close callback is invoked exactly once when the peer ends
  the connection without a Close frame, and never otherwise.
-/
import Jaguar.WsWire

namespace Jaguar

/-! ### Jaguar code and the socket value -/

/-- A call of a method of the socket value. -/
structure WsCall (φ : Type*) where
  method : Text
  args : List φ
  deriving DecidableEq

/-- The values of Jaguar code as `ws.c` sees them, and Jaguar code itself: the calls it
makes on the socket value when a function is invoked, and while the connection waits. -/
structure WsProgram (φ ω : Type*) where
  string : Text → φ
  /-- The text of a `V_STRING`. -/
  asString : φ → Option Text
  /-- `value_to_display_string`. -/
  display : φ → Text
  invoke : φ → List φ → ω → List (WsCall φ) × ω
  meanwhile : ω → List (WsCall φ) × ω

/-- What Jaguar code is invoked for. -/
inductive WsOccasion
  | route
  | message
  | close
  deriving DecidableEq

/-- What happens on a connection. -/
inductive WsEvent (φ : Type*)
  | called (call : WsCall φ)
  | invoked (occasion : WsOccasion) (f : φ)
  | wrote (opcode : ℕ) (payload : Text)

variable {φ ω : Type*} (p : WsProgram φ ω)

/-- `ws_conn_call_method`: the connection afterwards, and the frames written. -/
def SocketConn.callMethod (c : SocketConn φ) (call : WsCall φ) : SocketConn φ × List (ℕ × Text) :=
  if call.method = txt "on" then
    match call.args with
    | event :: f :: _ =>
      match p.asString event with
      | some event =>
        if event = txt "message" then ({ c with onMessage := some f }, [])
        else if event = txt "close" then ({ c with onClose := some f }, [])
        else (c, [])
      | none => (c, [])
    | _ => (c, [])
  else if call.method = txt "send" then
    match call.args with
    | s :: _ => if c.closed then (c, []) else (c, [(0x1, cStr (p.display s))])
    | [] => (c, [])
  else if call.method = txt "close" then
    if c.closed then (c, []) else ({ c with closed := true }, [(0x8, [])])
  -- `NULL`: no such method
  else (c, [])

/-! ### The connection -/

/-- The connection object, the state of Jaguar code, and what has happened so far. -/
structure WsSession (φ ω : Type*) where
  conn : SocketConn φ
  world : ω
  log : List (WsEvent φ)

namespace WsSession

variable (s : WsSession φ ω)

def call (c : WsCall φ) : WsSession φ ω :=
  let after := s.conn.callMethod p c
  { s with conn := after.1
           log := s.log ++ .called c :: after.2.map fun w => .wrote w.1 w.2 }

/-- Jaguar code makes its calls, one after the other. -/
def run (calls : List (WsCall φ) × ω) : WsSession φ ω :=
  calls.1.foldl (call p) { s with world := calls.2 }

/-- `interp_invoke_closure`. -/
def invoke (occasion : WsOccasion) (f : φ) (args : List φ) : WsSession φ ω :=
  run p { s with log := s.log ++ [.invoked occasion f] } (p.invoke f args s.world)

/-- The coroutine waits for its socket. -/
def wait : WsSession φ ω := run p s (p.meanwhile s.world)

def write (opcode : ℕ) (payload : Text) : WsSession φ ω :=
  wait p { s with log := s.log ++ [.wrote opcode payload] }

def setClosed : WsSession φ ω := { s with conn := { s.conn with closed := true } }

/-- What the loop does with a frame. -/
def handle (opcode : ℕ) (payload : Text) : WsSession φ ω :=
  if opcode = 0x1 ∨ opcode = 0x2 then
    match s.conn.onMessage with
    | some f => if s.conn.closed then s else invoke p s .message f [p.string (cStr payload)]
    | none => s
  else if opcode = 0x8 then
    if s.conn.closed then s else (write p s 0x8 []).setClosed
  else if opcode = 0x9 then write p s 0xA payload
  else s

/-- What follows the loop. -/
def finish : WsSession φ ω :=
  match s.conn.onClose with
  | some f => if s.conn.closed then s else invoke p s .close f []
  | none => s

end WsSession

/-- The loop of `ws_conn_entry`; `chunks` is what `recv` delivers before it reports the end
of file or an error (`n <= 0`).  `none`: a payload was copied from behind the buffer. -/
def serve (s : WsSession φ ω) (buf : Text) (chunks : List Text) : Option (WsSession φ ω) :=
  match _h : tryParseFrame buf with
  | .overrun => none
  | .need =>
    match chunks with
    | [] => some (s.wait p)
    | chunk :: chunks => serve (s.wait p) (buf ++ chunk) chunks
  | .frame _ opcode payload consumed =>
    let s := s.handle p opcode payload
    if opcode = 0x8 then some s
    else serve s (bufConsumeFront buf consumed) chunks
termination_by (chunks.length, buf.length)
decreasing_by
  · exact .left _ _ (Nat.lt_succ_self _)
  · have hn := tryParseFrame_consumed _h
    refine .right _ ?_
    rw [bufConsumeFront_eq_drop, List.length_drop]
    omega

/-- `ws_conn_entry` from the end of the handshake to the end of its loop: `b` holds the
handshake head of `headerEnd` bytes and whatever arrived behind it. -/
def wsConnLoop (handler sock : φ) (w : ω) (b : Text) (headerEnd : ℕ) (chunks : List Text) :
    Option (WsSession φ ω) :=
  let s : WsSession φ ω := ⟨⟨none, none, false⟩, w, []⟩
  serve p (s.invoke p .route handler [sock]) (bufConsumeFront b headerEnd) chunks

def wsConnEntry (handler sock : φ) (w : ω) (b : Text) (headerEnd : ℕ) (chunks : List Text) :
    Option (WsSession φ ω) :=
  (wsConnLoop p handler sock w b headerEnd chunks).map fun s => s.finish p

/-! ### Reading the log -/

/-- The callback that `ws.on("close", f)` registers. -/
def closeRegistration (c : WsCall φ) : Option φ :=
  if c.method = txt "on" then
    match c.args with
    | event :: f :: _ => if p.asString event = some (txt "close") then some f else none
    | _ => none
  else none

def WsEvent.registers : WsEvent φ → Option φ
  | .called c => closeRegistration p c
  | _ => none

/-- The callback registered last. -/
def lastRegistered (log : List (WsEvent φ)) : Option φ :=
  (log.filterMap (WsEvent.registers p)).getLast?

def WsEvent.closeInvoked : WsEvent φ → Option φ
  | .invoked .close f => some f
  | _ => none

/-- The invocations of close callbacks. -/
def closeInvocations (log : List (WsEvent φ)) : List φ := log.filterMap WsEvent.closeInvoked

/-- Jaguar code has called `ws.close()`. -/
def CallsClose (log : List (WsEvent φ)) : Prop :=
  ∃ c, WsEvent.called c ∈ log ∧ c.method = txt "close"

theorem closeInvocations_append (log log' : List (WsEvent φ)) :
    closeInvocations (log ++ log') = closeInvocations log ++ closeInvocations log' :=
  List.filterMap_append

/-- Events that register nothing leave the last registration as it was. -/
theorem lastRegistered_append {log log' : List (WsEvent φ)}
    (h : log'.filterMap (WsEvent.registers p) = []) :
    lastRegistered p (log ++ log') = lastRegistered p log := by
  rw [lastRegistered, List.filterMap_append, h, List.append_nil, lastRegistered]

theorem filterMap_registers_wrote (out : List (ℕ × Text)) :
    (out.map fun w => WsEvent.wrote w.1 w.2).filterMap (WsEvent.registers p) = [] := by
  rw [List.filterMap_map]
  exact List.filterMap_eq_nil_iff.mpr fun _ _ => rfl

theorem closeInvocations_wrote (out : List (ℕ × Text)) :
    closeInvocations (out.map fun w => (WsEvent.wrote w.1 w.2 : WsEvent φ)) = [] := by
  rw [closeInvocations, List.filterMap_map]
  exact List.filterMap_eq_nil_iff.mpr fun _ _ => rfl

theorem lastRegistered_called (log : List (WsEvent φ)) (c : WsCall φ) (out : List (ℕ × Text)) :
    lastRegistered p (log ++ .called c :: out.map fun w => .wrote w.1 w.2)
      = (closeRegistration p c).or (lastRegistered p log) := by
  have hsplit : log ++ WsEvent.called c :: (out.map fun w => WsEvent.wrote w.1 w.2)
      = (log ++ [.called c]) ++ out.map fun w => WsEvent.wrote w.1 w.2 := by simp
  rw [hsplit, lastRegistered_append p (filterMap_registers_wrote p out)]
  unfold lastRegistered
  rw [List.filterMap_append]
  cases hc : closeRegistration p c with
  | none => simp [WsEvent.registers, hc]
  | some f => simp [WsEvent.registers, hc]

/-- What a call makes of the connection: `on_close` is replaced by what the call registers,
and only `close` sets `closed`. -/
theorem SocketConn.callMethod_spec (conn : SocketConn φ) (c : WsCall φ) :
    (conn.callMethod p c).1.onClose = (closeRegistration p c).or conn.onClose ∧
      ((conn.callMethod p c).1.closed = true →
        conn.closed = true ∨ c.method = txt "close") := by
  have hon : txt "on" ≠ txt "send" ∧ txt "on" ≠ txt "close" := by decide
  have hclose : txt "message" ≠ txt "close" := by decide
  unfold SocketConn.callMethod closeRegistration
  by_cases hmethod : c.method = txt "on"
  · rw [if_pos hmethod, if_pos hmethod]
    cases c.args with
    | nil => exact ⟨rfl, .inl⟩
    | cons event rest =>
      cases rest with
      | nil => exact ⟨rfl, .inl⟩
      | cons f rest =>
        cases hevent : p.asString event with
        | none => exact ⟨by simp [hevent], by simp [hevent]; exact .inl⟩
        | some t =>
          simp only [hevent, Option.some.injEq]
          split_ifs <;> simp_all
  · rw [if_neg hmethod, if_neg hmethod]
    by_cases hsend : c.method = txt "send"
    · rw [if_pos hsend]
      cases c.args with
      | nil => exact ⟨rfl, .inl⟩
      | cons s rest =>
        dsimp only
        by_cases hclosed : conn.closed = true
        · rw [if_pos hclosed]
          exact ⟨rfl, .inl⟩
        · rw [if_neg hclosed]
          exact ⟨rfl, .inl⟩
    · rw [if_neg hsend]
      split_ifs with hcl hclosed
      · exact ⟨rfl, .inl⟩
      · exact ⟨rfl, fun _ => .inr hcl⟩
      · exact ⟨rfl, .inl⟩

/-! ### The invariant of a connection -/

/-- The connection object agrees with the log: `on_close` is the callback registered last,
`closed` was set by `ws.close()`, and no close callback has been invoked. -/
structure WsSession.Agrees (s : WsSession φ ω) : Prop where
  onClose : s.conn.onClose = lastRegistered p s.log
  closed : s.conn.closed = true → CallsClose s.log
  invocations : closeInvocations s.log = []

theorem CallsClose.append {log : List (WsEvent φ)} (h : CallsClose log)
    (log' : List (WsEvent φ)) : CallsClose (log ++ log') := by
  obtain ⟨c, hc, hm⟩ := h
  exact ⟨c, List.mem_append_left _ hc, hm⟩

namespace WsSession

variable {p} {s : WsSession φ ω}

theorem Agrees.call (h : s.Agrees p) (c : WsCall φ) : (s.call p c).Agrees p := by
  obtain ⟨hon, hcl⟩ := SocketConn.callMethod_spec p s.conn c
  constructor
  · rw [WsSession.call, lastRegistered_called, ← h.onClose]
    exact hon
  · intro hclosed
    rcases hcl hclosed with hbefore | hmethod
    · exact (h.closed hbefore).append _
    · exact ⟨c, by simp [WsSession.call], hmethod⟩
  · have hcalled : closeInvocations [WsEvent.called c] = [] := rfl
    rw [WsSession.call, List.append_cons, closeInvocations_append, closeInvocations_append,
      h.invocations, hcalled, closeInvocations_wrote]
    rfl

/-- Events that neither register nor invoke a close callback. -/
theorem Agrees.append (h : s.Agrees p) {log : List (WsEvent φ)}
    (hreg : log.filterMap (WsEvent.registers p) = []) (hinv : closeInvocations log = []) :
    ({ s with log := s.log ++ log } : WsSession φ ω).Agrees p where
  onClose := h.onClose.trans (lastRegistered_append p hreg).symm
  closed hclosed := (h.closed hclosed).append log
  invocations := by rw [closeInvocations_append, h.invocations, hinv, List.append_nil]

theorem Agrees.run (h : s.Agrees p) (calls : List (WsCall φ) × ω) : (s.run p calls).Agrees p := by
  obtain ⟨cs, w⟩ := calls
  have hw : ({ s with world := w } : WsSession φ ω).Agrees p := ⟨h.1, h.2, h.3⟩
  show (cs.foldl (WsSession.call p) { s with world := w }).Agrees p
  generalize ({ s with world := w } : WsSession φ ω) = t at hw
  induction cs generalizing t with
  | nil => exact hw
  | cons c cs ih => exact ih _ (hw.call c)

theorem Agrees.invoke (h : s.Agrees p) {occasion : WsOccasion} (hne : occasion ≠ .close) (f : φ)
    (args : List φ) : (s.invoke p occasion f args).Agrees p := by
  refine (h.append rfl ?_).run _
  cases occasion with
  | route => rfl
  | message => rfl
  | close => exact absurd rfl hne

theorem Agrees.wait (h : s.Agrees p) : (s.wait p).Agrees p := h.run _

theorem Agrees.write (h : s.Agrees p) (opcode : ℕ) (payload : Text) :
    (s.write p opcode payload).Agrees p := (h.append rfl rfl).wait

/-- Every frame but a Close frame keeps the invariant. -/
theorem Agrees.handle (h : s.Agrees p) {opcode : ℕ} (hop : opcode ≠ 0x8) (payload : Text) :
    (s.handle p opcode payload).Agrees p := by
  unfold WsSession.handle
  rw [if_neg hop]
  split
  · cases s.conn.onMessage with
    | none => exact h
    | some f =>
      dsimp only
      split
      · exact h
      · exact h.invoke (by decide) f _
  · split
    · exact h.write 0xA payload
    · exact h

/-- A Close frame sets `closed`; nothing else is registered or invoked on its account. -/
theorem Agrees.handle_close (h : s.Agrees p) (payload : Text) :
    (s.handle p 0x8 payload).conn.closed = true ∧
      (s.handle p 0x8 payload).conn.onClose = lastRegistered p (s.handle p 0x8 payload).log ∧
      closeInvocations (s.handle p 0x8 payload).log = [] := by
  unfold WsSession.handle
  rw [if_neg (by decide), if_pos rfl]
  split
  · next hclosed => exact ⟨hclosed, h.onClose, h.invocations⟩
  · have hw := h.write 0x8 []
    exact ⟨rfl, hw.onClose, hw.invocations⟩

end WsSession

/-! ### Streams of frames -/

/-- The connection ends before a frame, or inside one. -/
def CutShort (rest : Text) : Prop :=
  ∃ (g : WireFrame) (more : Text), more ≠ [] ∧ g.bytes = rest ++ more

theorem CutShort.not_starts {rest : Text} (h : CutShort rest) :
    ¬ WireFrame.code.Starts rest := by
  rintro ⟨x, t, rfl⟩
  obtain ⟨g, more, hmore, hg⟩ := h
  have hxg : x.bytes ++ (t ++ more) = g.bytes ++ [] := by
    rw [List.append_nil, hg, ← List.append_assoc]
    rfl
  obtain rfl := WireFrame.bytes_prefix_free hxg
  have hlen := congrArg List.length hxg
  simp only [List.length_append, List.length_nil] at hlen
  exact hmore (List.eq_nil_of_length_eq_zero (by omega))

theorem allDeclareUnder_frames (gs : List WireFrame) :
    AllDeclareUnder (gs.flatMap WireFrame.bytes) := by
  intro fs
  induction fs generalizing gs with
  | nil =>
    intro rest hs
    rw [List.flatMap_nil, List.nil_append] at hs
    rw [← hs]
    cases gs with
    | nil =>
      intro b0 b1 l t hnil
      cases hnil
    | cons g gs => exact g.declaresUnder_bytes_append _
  | cons f fs ih =>
    intro rest hs
    cases gs with
    | nil =>
      have hnil := (List.append_eq_nil_iff.mp (List.append_eq_nil_iff.mp hs.symm).1).1
      exact absurd hnil (WireFrame.code.word_ne_nil f)
    | cons g gs =>
      rw [List.flatMap_cons, List.flatMap_cons, List.append_assoc] at hs
      obtain rfl := WireFrame.bytes_prefix_free hs
      exact ih gs rest (List.append_cancel_left hs)

/-- What the parser needs to know of a stream of frames that ends anywhere. -/
theorem CutShort.reads {rest : Text} (h : CutShort rest) (fs : List WireFrame) :
    WireFrame.code.Reads (fs.flatMap WireFrame.bytes ++ rest) fs ∧
      AllDeclareUnder (fs.flatMap WireFrame.bytes ++ rest) := by
  constructor
  · induction fs with
    | nil => exact .nil h.not_starts
    | cons f fs ih =>
      rw [List.flatMap_cons, List.append_assoc]
      exact .cons ih
  · intro fs' rest' hs
    obtain ⟨g, more, -, hg⟩ := h
    -- with the rest of the last frame the stream consists of whole frames
    have hwhole : (fs ++ [g]).flatMap WireFrame.bytes
        = fs'.flatMap WireFrame.bytes ++ (rest' ++ more) := by
      rw [List.flatMap_append, List.flatMap_singleton, hg, ← List.append_assoc, hs,
        List.append_assoc]
    exact (allDeclareUnder_frames (fs ++ [g]) fs' _ hwhole).of_append

/-! ### The loop -/

section Unfold

variable {p} {s : WsSession φ ω} {buf : Text} {chunks : List Text}

theorem serve_need_nil (h : tryParseFrame buf = .need) : serve p s buf [] = some (s.wait p) := by
  rw [serve.eq_def]
  split <;> simp_all

theorem serve_need_cons (h : tryParseFrame buf = .need) (chunk : Text) :
    serve p s buf (chunk :: chunks) = serve p (s.wait p) (buf ++ chunk) chunks := by
  rw [serve.eq_def]
  split <;> simp_all

theorem serve_frame {fin : Bool} {opcode n : ℕ} {payload : Text}
    (h : tryParseFrame buf = .frame fin opcode payload n) :
    serve p s buf chunks =
      if opcode = 0x8 then some (s.handle p opcode payload)
      else serve p (s.handle p opcode payload) (bufConsumeFront buf n) chunks := by
  rw [serve.eq_def]
  split <;> simp_all

end Unfold

/-- **The loop over a stream of frames.**  It ends with the connection object in agreement
with the log when no frame is a Close frame, and with `closed` set otherwise. -/
theorem serve_spec (s : WsSession φ ω) (buf : Text) (chunks : List Text) :
    ∀ fs, WireFrame.code.Reads (buf ++ chunks.flatten) fs →
      AllDeclareUnder (buf ++ chunks.flatten) → s.Agrees p →
      ∃ s', serve p s buf chunks = some s' ∧ closeInvocations s'.log = [] ∧
        s'.conn.onClose = lastRegistered p s'.log ∧
        ((∀ f ∈ fs, f.opcode ≠ 0x8) → s'.Agrees p) ∧
        (¬ (∀ f ∈ fs, f.opcode ≠ 0x8) → s'.conn.closed = true) := by
  induction s, buf, chunks using serve.induct p with
  | case1 s buf chunks h =>
    intro fs _ hd
    exact absurd h (tryParseFrame_sound (hd [] _ rfl).of_append).1
  | case2 s buf h =>
    intro fs hfs _ hagree
    have hno : ¬ WireFrame.code.Starts (buf ++ [].flatten) := by
      rintro ⟨f, t, hs⟩
      rw [List.flatten_nil, List.append_nil] at hs
      rw [hs] at h
      exact absurd ((tryParseFrame_bytes f t).symm.trans h) (by simp)
    have hw := hagree.wait
    rw [hfs.eq_nil hno]
    exact ⟨_, serve_need_nil h, hw.invocations, hw.onClose, fun _ => hw,
      fun hclose => absurd (List.forall_mem_nil _) hclose⟩
  | case3 s buf h chunk chunks ih =>
    intro fs hfs hd hagree
    rw [List.flatten_cons, ← List.append_assoc] at hfs hd
    rw [serve_need_cons h]
    exact ih fs hfs hd hagree.wait
  | case4 s buf chunks fin payload n h =>
    intro fs hfs hd hagree
    obtain ⟨f, fs', rfl, hop, -, -⟩ := reads_of_parsed h hfs hd
    obtain ⟨hclosed, hon, hinv⟩ := hagree.handle_close payload
    rw [serve_frame h, if_pos rfl]
    exact ⟨_, rfl, hinv, hon, fun hno => absurd hop (hno f List.mem_cons_self), fun _ => hclosed⟩
  | case5 s buf chunks fin opcode payload n h hs' hclose ih =>
    intro fs hfs hd hagree
    obtain ⟨f, fs', rfl, hop, -, hfs', hd'⟩ := reads_of_parsed h hfs hd
    rw [serve_frame h, if_neg hclose]
    obtain ⟨s', hserve, hinv, hon, hwithout, hwith⟩ := ih fs' hfs' hd' (hagree.handle hclose payload)
    have hrest : (∀ g ∈ f :: fs', g.opcode ≠ 0x8) ↔ ∀ g ∈ fs', g.opcode ≠ 0x8 := by
      rw [List.forall_mem_cons, hop]
      exact and_iff_right hclose
    rw [hrest]
    exact ⟨s', hserve, hinv, hon, hwithout, hwith⟩

/-! ### The close callback -/

/-- What Jaguar code calls while a close callback runs adds no invocation. -/
theorem WsSession.closeInvocations_run (s : WsSession φ ω) (calls : List (WsCall φ) × ω) :
    closeInvocations (s.run p calls).log = closeInvocations s.log := by
  obtain ⟨cs, w⟩ := calls
  show closeInvocations (cs.foldl (WsSession.call p) { s with world := w }).log = _
  have hlog : s.log = ({ s with world := w } : WsSession φ ω).log := rfl
  rw [hlog]
  generalize ({ s with world := w } : WsSession φ ω) = t
  induction cs generalizing t with
  | nil => rfl
  | cons c cs ih =>
    have hcalled : closeInvocations [WsEvent.called c] = [] := rfl
    rw [List.foldl_cons, ih, WsSession.call, List.append_cons, closeInvocations_append,
      closeInvocations_append, hcalled, closeInvocations_wrote, List.append_nil, List.append_nil]

/-- **The close callback and the Close frame.**  Let the bytes behind the handshake be the
frames `fs` and the beginning of another, however they arrive, and let Jaguar code not call
`ws.close()` before the loop ends.  Then the callback registered last is invoked exactly once
if and only if none of `fs` is a Close frame: a Close frame sets `closed`, and the test
behind the loop then leaves the callback out. -/
theorem close_callback_once_iff (handler sock : φ) (w : ω) (b : Text) (headerEnd : ℕ)
    (chunks : List Text) {fs : List WireFrame} {rest : Text} (hrest : CutShort rest)
    (hstream : bufConsumeFront b headerEnd ++ chunks.flatten
      = fs.flatMap WireFrame.bytes ++ rest) :
    ∃ s s', wsConnLoop p handler sock w b headerEnd chunks = some s ∧
      wsConnEntry p handler sock w b headerEnd chunks = some s' ∧
      ∀ f, lastRegistered p s.log = some f → ¬ CallsClose s.log →
        (closeInvocations s'.log = [f] ↔ ∀ g ∈ fs, g.opcode ≠ 0x8) := by
  obtain ⟨hfs, hd⟩ := hrest.reads fs
  rw [← hstream] at hfs hd
  have hstart : (⟨⟨none, none, false⟩, w, []⟩ : WsSession φ ω).Agrees p :=
    ⟨rfl, fun h => absurd h Bool.false_ne_true, rfl⟩
  have hroute := hstart.invoke (show WsOccasion.route ≠ .close by decide) handler [sock]
  obtain ⟨s, hserve, hinv, hon, hwithout, hwith⟩ := serve_spec p _ _ _ fs hfs hd hroute
  have hloop : wsConnLoop p handler sock w b headerEnd chunks = some s := hserve
  refine ⟨s, s.finish p, hloop, by rw [wsConnEntry, hloop, Option.map_some], ?_⟩
  intro f hlast hnocall
  rw [hlast] at hon
  unfold WsSession.finish
  rw [hon]
  dsimp only
  constructor
  · -- the callback ran, so `closed` was not set
    intro honce
    by_contra hclose
    rw [if_pos (hwith hclose), hinv] at honce
    cases honce
  · intro hno
    have hopen : ¬ s.conn.closed = true := fun hclosed => hnocall ((hwithout hno).closed hclosed)
    rw [if_neg hopen, WsSession.invoke, WsSession.closeInvocations_run, closeInvocations_append,
      hinv]
    rfl

/-- A handler (function 0) that registers function 1 for `close`, and nothing else. -/
def registersClose : WsProgram (Text ⊕ ℕ) Unit where
  string := .inl
  asString := Sum.getLeft?
  display v := v.getLeft?.getD []
  invoke f _ w := (if f = .inr 0 then [⟨txt "on", [.inl (txt "close"), .inr 1]⟩] else [], w)
  meanwhile w := ([], w)

/-- The peer ends the connection without a frame. -/
theorem close_callback_end_of_file :
    ∃ s', wsConnEntry registersClose (.inr 0) (.inr 2) () [10] 1 [] = some s' ∧
      closeInvocations s'.log = [.inr 1] := by
  have hrest : CutShort [] :=
    ⟨finalFrame 1 none (fun _ hk => by cases hk) [] (by decide), [0x81, 0], by decide, by decide⟩
  obtain ⟨s, s', hloop, hentry, h⟩ := @close_callback_once_iff _ _ registersClose (.inr 0) (.inr 2)
    () [10] 1 [] [] [] hrest rfl
  refine ⟨s', hentry, (h (.inr 1) ?_ ?_).mpr (List.forall_mem_nil _)⟩ <;>
    (obtain rfl := Option.some.inj ((serve_need_nil rfl).symm.trans hloop))
  · rfl
  · rintro ⟨c, hc, hm⟩
    change WsEvent.called c ∈ [.invoked .route (.inr 0),
      .called ⟨txt "on", [.inl (txt "close"), .inr 1]⟩] at hc
    obtain rfl : c = ⟨txt "on", [.inl (txt "close"), .inr 1]⟩ := by simpa using hc
    exact absurd hm (by decide)

/-- The peer sends one Close frame: the registered callback is not invoked. -/
theorem close_frame_skips_callback :
    ∃ s s', wsConnLoop registersClose (.inr 0) (.inr 2) () [10] 1 [[0x88, 0x80, 1, 2, 3, 4]]
        = some s ∧
      wsConnEntry registersClose (.inr 0) (.inr 2) () [10] 1 [[0x88, 0x80, 1, 2, 3, 4]]
        = some s' ∧
      lastRegistered registersClose s.log = some (.inr 1) ∧ ¬ CallsClose s.log ∧
      closeInvocations s'.log ≠ [.inr 1] := by
  have hframe : tryParseFrame ([] ++ [0x88, 0x80, 1, 2, 3, 4]) = .frame true 8 [] 6 := by
    decide +kernel
  have hloop : ∀ s, serve registersClose s [] [[0x88, 0x80, 1, 2, 3, 4]]
      = some ((s.wait registersClose).handle registersClose 8 []) := by
    intro s
    rw [serve_need_cons rfl, serve_frame hframe, if_pos rfl]
  refine ⟨_, _, hloop _, congrArg (Option.map _) (hloop _), rfl, ?_, ?_⟩
  · rintro ⟨c, hc, hm⟩
    change WsEvent.called c ∈ [.invoked .route (.inr 0),
      .called ⟨txt "on", [.inl (txt "close"), .inr 1]⟩, .wrote 8 []] at hc
    obtain rfl : c = ⟨txt "on", [.inl (txt "close"), .inr 1]⟩ := by simpa using hc
    exact absurd hm (by decide)
  · intro h
    cases h

end Jaguar
