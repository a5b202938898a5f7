/-
What the socket of a connection takes (`net_write_all`, `ws_write_frame`).

`net_write_all` may be suspended in the middle of a frame, and nothing marks the connection as
busy: another frame may start there.

* `Chunk.bytes`, `Server.socketBytes` — what a `send()` took, and all that a socket took;
* `StartsAlone` — a frame is started while no other one is being written to its descriptor;
* `Joins`, `LoneWriters` — then a `send()` goes on where the last one on its socket stopped;
* `WholeFrames`, `framesPrefix_of_startsAlone` — **and a socket never takes anything but whole
  frames and the beginning of one more**;
* `frames_interleaved` — two frames that are written at a time.
-/
import Jaguar.ConnOwners

namespace Jaguar

open Server

namespace Chunk

/-- What was taken. -/
def bytes (c : Chunk) : Text := (c.write.data.drop c.write.sent).take c.taken

/-- Where the frame stands afterwards. -/
def stop (c : Chunk) : ℕ := c.write.sent + c.taken

end Chunk

/-- The frame bytes that a socket has taken. -/
def Server.socketBytes (s : Server) (k : ℕ) : Text := (s.accepted k).flatMap Chunk.bytes

def IsFrame (data : Text) : Prop := ∃ opcode payload, data = wsWriteFrame opcode payload

/-- Whole frames, and the beginning of one more. -/
def FramesPrefix (bytes : Text) : Prop :=
  ∃ frames : List Text, (∀ f ∈ frames, IsFrame f) ∧ bytes <+: frames.flatten

/-- Somebody is writing a frame to the descriptor. -/
def Server.FrameUnderWay (s : Server) (fd : ℕ) : Prop :=
  ∃ ctx, ∃ w ∈ s.writeOf ctx, w.purpose.isFrame = true ∧ w.fd = fd

/-- The last frame of a log has been taken to its end. -/
def EndsWhole (log : List Chunk) : Prop := ∀ c ∈ log.getLast?, c.stop = c.write.data.length

/-- Nobody is writing a frame to the descriptor, and no `send()` has failed in the middle of one. -/
def Server.Idle (s : Server) (fd : ℕ) : Prop :=
  ¬ s.FrameUnderWay fd ∧ ∀ k, s.files fd = some (.socket k) → EndsWhole (s.accepted k)

/-- A frame is started on an idle descriptor only, and no connection gets a number to which somebody
is still writing one. -/
def StartsAlone (s : Server) : ServerEvent → Prop
  | .wsSend c _ | .wsClose c => s.Idle (s.conns c).fd
  | .pong _ fd _ _ | .answerClose _ fd _ => s.Idle fd
  | .accept _ _ fd => ¬ s.FrameUnderWay fd
  | _ => True

/-! ### The invariant -/

/-- A `send()` that comes after `last` starts a frame after a whole one, or goes on with the
frame that `last` is of. -/
def Joins (last : Option Chunk) (sender : Option ℕ) (w : Write) : Prop :=
  match last with
  | none => w.sent = 0
  | some c => (c.stop = c.write.data.length ∧ w.sent = 0) ∨
    (c.sender = sender ∧ w = { c.write with sent := c.stop })

theorem EndsWhole.joins {log : List Chunk} (h : EndsWhole log) (sender : Option ℕ) {w : Write}
    (hw : w.sent = 0) : Joins log.getLast? sender w := by
  cases hlast : log.getLast? with
  | none => exact hw
  | some c => exact .inl ⟨h c hlast, hw⟩

/-- A log of whole frames, the last one perhaps only begun. -/
def WholeFrames (log : List Chunk) : Prop :=
  log = [] ∨ ∃ frames : List Text, ∃ c, (∀ f ∈ frames, IsFrame f) ∧ IsFrame c.write.data ∧
    log.getLast? = some c ∧ log.flatMap Chunk.bytes = frames.flatten ++ c.write.data.take c.stop

theorem WholeFrames.framesPrefix {log : List Chunk} (h : WholeFrames log) :
    FramesPrefix (log.flatMap Chunk.bytes) := by
  rcases h with rfl | ⟨frames, c, hframes, hc, -, hbytes⟩
  · exact ⟨[], by simp, List.prefix_rfl⟩
  · refine ⟨frames ++ [c.write.data], fun f hf => ?_, ?_⟩
    · rcases List.mem_append.mp hf with hf | hf
      · exact hframes f hf
      · exact List.mem_singleton.mp hf ▸ hc
    · rw [hbytes, List.flatten_append, List.flatten_singleton, List.prefix_append_right_inj]
      exact List.take_prefix _ _

/-- **One more `send()`.** -/
theorem WholeFrames.snoc {log : List Chunk} (h : WholeFrames log) {sender : Option ℕ} {w : Write}
    (hw : IsFrame w.data) (hjoins : Joins log.getLast? sender w) (n : ℕ) :
    WholeFrames (log ++ [⟨sender, w, n⟩]) := by
  have hstart : w.sent = 0 → (Chunk.mk sender w n).bytes = w.data.take (Chunk.mk sender w n).stop := by
    intro h0
    simp [Chunk.bytes, Chunk.stop, h0]
  rcases h with rfl | ⟨frames, c, hframes, hc, hlast, hbytes⟩
  · refine .inr ⟨[], _, by simp, hw, rfl, ?_⟩
    simpa using hstart hjoins
  · rw [hlast] at hjoins
    rw [WholeFrames, List.flatMap_append, List.flatMap_singleton, hbytes]
    rcases hjoins with ⟨hwhole, h0⟩ | ⟨-, rfl⟩
    · refine .inr ⟨frames ++ [c.write.data], _, fun f hf => ?_, hw, List.getLast?_concat, ?_⟩
      · rcases List.mem_append.mp hf with hf | hf
        · exact hframes f hf
        · exact List.mem_singleton.mp hf ▸ hc
      · rw [hstart h0, hwhole, List.take_length, List.flatten_append, List.flatten_singleton]
    · refine .inr ⟨frames, ⟨sender, { c.write with sent := c.stop }, n⟩, hframes, hc,
        List.getLast?_concat, ?_⟩
      have htake : c.write.data.take (c.stop + n)
          = c.write.data.take c.stop ++ (c.write.data.drop c.stop).take n := List.take_add
      exact (List.append_assoc _ _ _).trans (congrArg (frames.flatten ++ ·) htake.symm)

section Step

variable {s : Server} {e : ServerEvent}

/-- Every frame under way is one that `ws_write_frame` has built. -/
def FrameWrites (s : Server) : Prop :=
  ∀ ctx w, s.writeOf ctx = some w → w.purpose.isFrame = true → IsFrame w.data

theorem FrameWrites.step (h : FrameWrites s) (hen : s.Enabled e) : FrameWrites (s.after e) := by
  intro ctx w hw hframe
  rcases write_after hen hw with ⟨w₀, hw₀, hsame⟩ | hfresh
  · rw [hsame.data]
    exact h ctx w₀ hw₀ (hsame.purpose ▸ hframe)
  · exact hfresh.frame hframe

/-- Only a `send()` of a frame is logged. -/
theorem accepted_after (k : ℕ) : (s.after e).accepted k = s.accepted k ∨
    ∃ n w, e = .send n ∧ s.writeOf s.current = some w ∧ s.files w.fd = some (.socket k) ∧
      w.purpose.isFrame = true ∧ (s.after e).accepted k = s.accepted k ++ [⟨s.current, w, n⟩] := by
  cases e with
  | send n =>
    rw [after]
    cases hw : s.writeOf s.current with
    | none =>
      rw [afterSend, hw]
      exact .inl rfl
    | some w =>
      have hlog : (s.afterSend n).accepted = s.logSend w n := by
        rw [afterSend, hw]
        exact accepted_setWrite _ _ _
      rw [hlog, logSend]
      cases hfile : s.files w.fd with
      | none => exact .inl rfl
      | some f =>
        cases f with
        | socket k' =>
          simp only
          split_ifs with hframe
          · by_cases hk : k = k'
            · subst hk
              rw [Function.update_self]
              exact .inr ⟨n, w, rfl, rfl, hfile, hframe, rfl⟩
            · rw [Function.update_of_ne hk]
              exact .inl rfl
          · exact .inl rfl
        | _ => exact .inl rfl
  | sendFails | writeReturns => exact .inl (congrFun s.accepted_afterWrite k)
  | wsSend | wsClose => exact .inl (congrFun (accepted_setWrite _ _ _) k)
  | _ => exact .inl rfl

/-- The frame that an event starts, and who writes it. -/
def Server.Starts (s : Server) (e : ServerEvent) (ctx : Option ℕ) (w : Write) : Prop :=
  w.sent = 0 ∧ match e with
    | .wsSend c _ | .wsClose c => ctx = s.current ∧ w.fd = (s.conns c).fd
    | .pong co fd _ _ | .answerClose co fd _ => ctx = some co ∧ w.fd = fd
    | _ => False

/-- **Where a frame under way comes from**: it was under way before, a `send()` has taken more of
it, or it has been started. -/
theorem frame_after {ctx : Option ℕ} {w' : Write} (hw' : (s.after e).writeOf ctx = some w')
    (hframe : w'.purpose.isFrame = true) :
    (s.writeOf ctx = some w' ∧ ((∃ n, e = .send n) → ctx ≠ s.current)) ∨
    (∃ n w, e = .send n ∧ ctx = s.current ∧ s.writeOf ctx = some w ∧
      w' = { w with sent := w.sent + n }) ∨ s.Starts e ctx w' := by
  have hold : s.writeOf ctx = some w' → (∀ n, e ≠ .send n) →
      (s.writeOf ctx = some w' ∧ ((∃ n, e = .send n) → ctx ≠ s.current)) ∨
      (∃ n w, e = .send n ∧ ctx = s.current ∧ s.writeOf ctx = some w ∧
        w' = { w with sent := w.sent + n }) ∨ s.Starts e ctx w' :=
    fun hw hne => .inl ⟨hw, fun ⟨n, he⟩ => absurd he (hne n)⟩
  cases e with
  | respond co p fd data =>
    rw [after, writeOf_startWrite] at hw'
    split_ifs at hw' with hctx
    · rw [← Option.some.inj hw'] at hframe
      cases hframe
    · exact hold hw' fun _ => by simp
  | upgrade co fd data =>
    rw [after, writeOf_startWrite] at hw'
    split_ifs at hw' with hctx
    · rw [← Option.some.inj hw'] at hframe
      cases hframe
    · exact hold hw' fun _ => by simp
  | pong co fd c payload =>
    rw [after, writeOf_startWrite] at hw'
    split_ifs at hw' with hctx
    · obtain rfl := Option.some.inj hw'
      exact .inr (.inr ⟨rfl, hctx, rfl⟩)
    · exact hold hw' fun _ => by simp
  | answerClose co fd c =>
    rw [after, writeOf_startWrite] at hw'
    split_ifs at hw' with hctx
    · obtain rfl := Option.some.inj hw'
      exact .inr (.inr ⟨rfl, hctx, rfl⟩)
    · exact hold hw' fun _ => by simp
  | wsSend | wsClose =>
    rw [after, writeOf_setWrite] at hw'
    split_ifs at hw' with hctx
    · obtain rfl := Option.some.inj hw'
      exact .inr (.inr ⟨rfl, hctx, rfl⟩)
    · exact hold hw' fun _ => by simp
  | send n =>
    rw [after, writeOf_afterSend] at hw'
    split_ifs at hw' with hctx
    · obtain ⟨w, hw, rfl⟩ := Option.map_eq_some_iff.mp hw'
      exact .inr (.inl ⟨n, w, rfl, hctx, hctx ▸ hw, rfl⟩)
    · exact .inl ⟨hw', fun _ => hctx⟩
  | sendFails | writeReturns =>
    rw [after, writeOf_afterWrite] at hw'
    split_ifs at hw' with hctx
    exact hold hw' fun _ => by simp
  | listen | accept => exact hold ((writeOf_startCoro _ _ _).symm.trans hw') fun _ => by simp
  | turn | connect => exact hold ((writeOf_setPhase _ _ _ _).symm.trans hw') fun _ => by simp
  | close co fd =>
    exact hold ((writeOf_setPhase ((s.setFile fd none).reactorUnwatchFd fd) co .done ctx).symm.trans
      hw') fun _ => by simp
  | await co fd interest =>
    exact hold ((writeOf_setAwaiting (s.reactorWatchFd fd interest co) co _ ctx).symm.trans hw')
      fun _ => by simp
  | resume co fd interest =>
    exact hold (((writeOf_setPhase _ co _ ctx).trans
      (writeOf_setAwaiting (s.reactorUnwatchFd fd) co none ctx)).symm.trans hw') fun _ => by simp
  | _ => exact hold hw' fun _ => by simp

/-- A socket was there before, or it has just been accepted. -/
theorem socket_of_after (hen : s.Enabled e) {fd k : ℕ}
    (h : (s.after e).files fd = some (.socket k)) :
    s.files fd = some (.socket k) ∨ ∃ co kind, e = .accept co kind fd := by
  by_cases he : e.livens = true
  · cases e with
    | listen kind => exact .inl h
    | accept co kind g =>
      by_cases hfd : fd = g
      · exact .inr ⟨co, kind, by rw [hfd]⟩
      · exact .inl ((Function.update_of_ne hfd _ _).symm.trans h)
    | close co g =>
      by_cases hfd : fd = g
      · subst hfd
        have hnone : (s.after (.close co fd)).files fd = none := Function.update_self _ _ _
        rw [hnone] at h
        cases h
      · exact .inl ((Function.update_of_ne hfd _ _).symm.trans h)
    | _ => cases he
  · exact .inl ((socket_after hen (Bool.eq_false_iff.mpr he) fd k).mp h)

/-- No two frames are being written to one descriptor, and what is being written goes on with the
last frame of its socket, or comes after it. -/
structure LoneWriters (s : Server) : Prop where
  alone : ∀ ctx ctx' w w', s.writeOf ctx = some w → s.writeOf ctx' = some w' →
    w.purpose.isFrame = true → w'.purpose.isFrame = true → w.fd = w'.fd → ctx = ctx'
  joins : ∀ ctx w k, s.writeOf ctx = some w → w.purpose.isFrame = true →
    s.files w.fd = some (.socket k) → Joins (s.accepted k).getLast? ctx w

/-- A frame that is started finds its descriptor idle. -/
theorem StartsAlone.idle {ctx : Option ℕ} {w : Write} (halone : StartsAlone s e)
    (hstarts : s.Starts e ctx w) : s.Idle w.fd := by
  obtain ⟨-, hstarts⟩ := hstarts
  cases e with
  | wsSend | wsClose | pong | answerClose =>
    rw [hstarts.2]
    exact halone
  | _ => exact hstarts.elim

/-- Who starts the frame is settled by the event. -/
theorem Server.Starts.unique {ctx ctx' : Option ℕ} {w w' : Write} (h : s.Starts e ctx w)
    (h' : s.Starts e ctx' w') : ctx = ctx' := by
  obtain ⟨-, h⟩ := h
  obtain ⟨-, h'⟩ := h'
  cases e with
  | wsSend | wsClose | pong | answerClose => exact h.1.trans h'.1.symm
  | _ => exact h.elim

/-- A frame that was not started now was under way. -/
theorem underWay_of_frame_after {ctx : Option ℕ} {w' : Write}
    (hw' : (s.after e).writeOf ctx = some w') (hframe : w'.purpose.isFrame = true) :
    (∃ w, s.writeOf ctx = some w ∧ w.purpose.isFrame = true ∧ w.fd = w'.fd) ∨
      s.Starts e ctx w' := by
  rcases frame_after hw' hframe with ⟨hw, -⟩ | ⟨n, w, -, -, hw, rfl⟩ | hstarts
  · exact .inl ⟨w', hw, hframe, rfl⟩
  · exact .inl ⟨w, hw, hframe, rfl⟩
  · exact .inr hstarts

/-- **There is one writer for each descriptor, as long as frames are started alone.** -/
theorem LoneWriters.step (h : LoneWriters s) (howners : Owners s) (hen : s.Enabled e)
    (halone : StartsAlone s e) : LoneWriters (s.after e) where
  alone ctx ctx' w w' hw hw' hframe hframe' hfd := by
    rcases underWay_of_frame_after hw hframe with ⟨w₀, hw₀, hframe₀, hfd₀⟩ | hstarts
    · rcases underWay_of_frame_after hw' hframe' with ⟨w₁, hw₁, hframe₁, hfd₁⟩ | hstarts'
      · exact h.alone ctx ctx' w₀ w₁ hw₀ hw₁ hframe₀ hframe₁ (by rw [hfd₀, hfd, hfd₁])
      · exact absurd ⟨ctx, w₀, hw₀, hframe₀, hfd₀.trans hfd⟩ (halone.idle hstarts').1
    · rcases underWay_of_frame_after hw' hframe' with ⟨w₁, hw₁, hframe₁, hfd₁⟩ | hstarts'
      · exact absurd ⟨ctx', w₁, hw₁, hframe₁, hfd₁.trans hfd.symm⟩ (halone.idle hstarts).1
      · exact hstarts.unique hstarts'
  joins ctx w' k hw' hframe hfile := by
    -- a number just handed out is not being written to
    have hfile₀ : s.files w'.fd = some (.socket k) := by
      rcases socket_of_after hen hfile with hfile₀ | ⟨co, kind, rfl⟩
      · exact hfile₀
      · rcases underWay_of_frame_after hw' hframe with ⟨w₀, hw₀, hframe₀, hfd₀⟩ | hstarts
        · exact absurd ⟨ctx, w₀, hw₀, hframe₀, hfd₀⟩ halone
        · exact hstarts.2.elim
    rcases frame_after hw' hframe with ⟨hw, hother⟩ | ⟨n, w, rfl, rfl, hw, rfl⟩ | hstarts
    · rcases accepted_after (s := s) (e := e) k with heq | ⟨n, w, rfl, hw₁, hfile₁, hframe₁, -⟩
      · rw [heq]
        exact h.joins ctx w' k hw hframe hfile₀
      · -- the socket has one number, so the two would be writing to one descriptor
        have hfd : w'.fd = w.fd := by
          have howns := (howners.file w'.fd k).mp hfile₀
          rw [(howners.file w.fd k).mp hfile₁] at howns
          exact (Life.owns.inj howns).symm
        exact absurd (h.alone _ _ _ _ hw hw₁ hframe hframe₁ hfd) (hother ⟨n, rfl⟩)
    · have hlog : (s.after (.send n)).accepted k = s.accepted k ++ [⟨s.current, w, n⟩] := by
        have hframe₀ : w.purpose.isFrame = true := hframe
        have hsend : (s.afterSend n).accepted = s.logSend w n := by
          rw [afterSend, hw]
          exact accepted_setWrite _ _ _
        rw [after, hsend, logSend, hfile₀]
        dsimp only
        rw [if_pos hframe₀]
        exact Function.update_self _ _ _
      rw [hlog, List.getLast?_concat]
      exact .inr ⟨rfl, rfl⟩
    · rcases accepted_after (s := s) (e := e) k with heq | ⟨n, w, rfl, -⟩
      · rw [heq]
        exact ((halone.idle hstarts).2 k hfile₀).joins ctx hstarts.1
      · exact hstarts.2.elim

theorem wholeFrames_step (hwrites : FrameWrites s) (hlone : LoneWriters s)
    (h : ∀ k, WholeFrames (s.accepted k)) (k : ℕ) : WholeFrames ((s.after e).accepted k) := by
  rcases accepted_after (s := s) (e := e) k with heq | ⟨n, w, rfl, hw, hfile, hframe, heq⟩
  · rw [heq]
    exact h k
  · rw [heq]
    exact (h k).snoc (hwrites _ w hw hframe) (hlone.joins _ w k hw hframe hfile) n

end Step

/-- **As long as every frame is started while no other one is being written to its descriptor, every
socket takes whole frames and the beginning of one more.** -/
theorem framesPrefix_of_startsAlone (ls : List ServerEvent) (s : Server)
    (hrun : (serverSystem.restrict StartsAlone).Run ls s) (k : ℕ) :
    FramesPrefix (s.socketBytes k) := by
  suffices Owners s ∧ FrameWrites s ∧ LoneWriters s ∧ ∀ k, WholeFrames (s.accepted k) from
    (this.2.2.2 k).framesPrefix
  refine LTS.Run.invariant (I := fun _ s => Owners s ∧ FrameWrites s ∧ LoneWriters s ∧
    ∀ k, WholeFrames (s.accepted k)) ?_ ?_ hrun
  · rintro s rfl
    have hnone : ∀ ctx, start.writeOf ctx = none := fun ctx => by cases ctx <;> rfl
    refine ⟨owners_start, fun ctx w hw => ?_, ⟨fun ctx _ w _ hw => ?_, fun ctx w _ hw => ?_⟩,
      fun k => .inl rfl⟩ <;>
    · rw [hnone] at hw
      cases hw
  · rintro _ s e s' ⟨howners, hwrites, hlone, h⟩ ⟨⟨hen, rfl⟩, halone⟩
    exact ⟨howners.step hen, hwrites.step hen, hlone.step howners hen halone,
      wholeFrames_step hwrites hlone h⟩

/-- The route handler of a connection sends a message, whose first byte is taken before the send
buffer is full; the rest goes out before the frame loop answers a Ping. -/
def messageAndPong : List ServerEvent :=
  oneConnection ++ [.wsSend 0 (txt "x"), .send 1, .await 1 5 .writable,
    .turn 0 (.accepting .ws) (.listening .ws), .await 0 3 .readable, .wait [5],
    .resume 1 5 .writable, .send 2, .writeReturns, .turn 1 (.routeHandler 5 0) (.frames 5 0),
    .pong 1 5 0 (txt "hi"), .send 3]

theorem idle_of_no_write {s : Server} {fd : ℕ} (hmain : s.mainWrite = none)
    (hcoros : ∀ co, (s.coros co).write = none)
    (hends : ∀ k, s.files fd = some (.socket k) → EndsWhole (s.accepted k)) : s.Idle fd := by
  refine ⟨?_, hends⟩
  rintro ⟨ctx, w, hw, -⟩
  cases ctx with
  | none => rw [Option.mem_def, writeOf, hmain] at hw; cases hw
  | some co => rw [Option.mem_def, writeOf, hcoros] at hw; cases hw

theorem framesPrefix_of_startsAlone_messageAndPong :
    ∃ s, (serverSystem.restrict StartsAlone).Run messageAndPong s ∧
      s.socketBytes 1 = wsWriteFrame 0x1 (txt "x") ++ (wsWriteFrame 0xA (txt "hi")).take 3 ∧
      FramesPrefix (s.socketBytes 1) := by
  have hruns : start.Runs messageAndPong := by decide +kernel
  have hmeets : Meets StartsAlone start messageAndPong := by
    have hcases : ∀ (P : ℕ → Prop), P 0 → P 1 → (∀ n, P (n + 2)) → ∀ co, P co := fun P h0 h1 h co =>
      match co with
      | 0 => h0
      | 1 => h1
      | n + 2 => h n
    refine ⟨trivial, trivial, trivial, trivial, trivial, trivial, ?_, trivial, trivial, trivial,
      trivial, ?_, trivial, trivial, trivial, trivial, trivial, trivial, trivial, trivial, trivial,
      ?_, trivial, trivial⟩
    · exact (idle_of_no_write rfl (hcases _ rfl rfl fun _ => rfl) fun k hk => by cases hk).1
    · refine idle_of_no_write rfl (hcases _ rfl rfl fun _ => rfl) fun k hk => ?_
      obtain rfl : 1 = k := File.socket.inj (Option.some.inj hk)
      unfold EndsWhole
      decide +kernel
    · refine idle_of_no_write rfl (hcases _ rfl rfl fun _ => rfl) fun k hk => ?_
      obtain rfl : 1 = k := File.socket.inj (Option.some.inj hk)
      unfold EndsWhole
      decide +kernel
  have hrun := hruns.restrict hmeets
  exact ⟨_, hrun, by decide +kernel, framesPrefix_of_startsAlone _ _ hrun 1⟩

/-- The second byte of a frame is below 128. -/
theorem wsWriteFrame_second (opcode : ℕ) (payload : Text) :
    ∃ b₀ b₁ rest, wsWriteFrame opcode payload = b₀ :: b₁ :: rest ∧ b₁.toNat < 128 := by
  unfold wsWriteFrame
  simp only
  split_ifs with h h'
  · refine ⟨_, _, _, rfl, ?_⟩
    rw [UInt8.toNat_ofNat']
    omega
  · exact ⟨_, _, _, rfl, by decide⟩
  · exact ⟨_, _, _, rfl, by decide⟩

theorem not_framesPrefix : ¬ FramesPrefix [0x81, 0x81] := by
  rintro ⟨frames, hframes, hprefix⟩
  cases frames with
  | nil => simp at hprefix
  | cons f frames =>
    obtain ⟨opcode, payload, rfl⟩ := hframes f List.mem_cons_self
    obtain ⟨b₀, b₁, rest, hf, hlt⟩ := wsWriteFrame_second opcode payload
    rw [List.flatten_cons, hf] at hprefix
    obtain ⟨-, hrest⟩ := List.cons_prefix_cons.mp hprefix
    obtain ⟨rfl, -⟩ := List.cons_prefix_cons.mp hrest
    exact absurd hlt (by decide)

/-- The route handler of a connection sends a message; its first byte is taken and the send
buffer is full, so that the coroutine is suspended. A timer callback sends another one. -/
theorem frames_interleaved :
    ∃ s, serverSystem.Run (oneConnection ++ [.wsSend 0 (txt "x"), .send 1, .await 1 5 .writable,
        .turn 0 (.accepting .ws) (.listening .ws), .await 0 3 .readable, .wsSend 0 (txt "x"),
        .send 1]) s ∧
      s.socketBytes 1 = [0x81, 0x81] ∧ ¬ FramesPrefix (s.socketBytes 1) := by
  refine ⟨_, Runs.run (by decide +kernel), (and_iff_left_of_imp fun hbytes => ?_).mpr ?_⟩
  · rw [hbytes]
    exact not_framesPrefix
  · decide +kernel

end Jaguar
