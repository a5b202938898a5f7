/-
Whose socket `ws.send` and `ws.close` write to (`ws_conn_call_method`, `ws_conn_entry`).

A connection value keeps the number of its descriptor. The number is the connection's own until
`ws_conn_entry` closes it, and then the kernel hands it out again; the value's `closed` flag is
set by a Close frame and by `ws.close` only, not by the other ways out of the frame loop.

* `Owners`, `owners_of_run` — which coroutine owns which descriptor, in every run;
* `OwnedSend`, `EntryRuns` — the socket is the connection's own, `ws_conn_entry` has not returned;
* `owned_iff_entryRuns` — **the one exactly when the other**; and both hold in the runs where
  nothing is closed before the flag is set and no write is under way.
-/
import Jaguar.Server

namespace Jaguar

open Server

/-- Descriptors and their owners. -/
structure Owners (s : Server) : Prop where
  unborn : ∀ co, s.coroCount ≤ co → (s.coros co).phase.life = .unborn
  file : ∀ fd co, s.files fd = some (.socket co) ↔ (s.coros co).phase.life = .owns fd
  conn : ∀ c < s.connCount, (s.coros (s.conns c).owner).phase.life = .done ∨
    (s.coros (s.conns c).owner).phase.life = .owns (s.conns c).fd
  write : ∀ ctx w c, s.writeOf ctx = some w → w.purpose.method? = some c →
    w.fd = (s.conns c).fd ∧ c < s.connCount

/-- The same connection later: a flag that is set stays set. -/
structure SameConn (c c' : Connection) : Prop where
  fd : c'.fd = c.fd
  owner : c'.owner = c.owner
  closed : c.closed = true → c'.closed = true

theorem SameConn.refl (c : Connection) : SameConn c c := ⟨rfl, rfl, id⟩

theorem conn_afterWrite (s : Server) (c : ℕ) : SameConn (s.conns c) (s.afterWrite.conns c) := by
  unfold afterWrite
  split
  · next w _ =>
    cases w.purpose.closes? with
    | none =>
      rw [setClosed, conns_setWrite]
      exact .refl _
    | some d =>
      by_cases hd : c = d
      · subst hd
        constructor <;> simp [setClosed]
      · constructor <;> simp [setClosed, hd]
  · exact .refl _

section Step

variable {s : Server} {e : ServerEvent}

/-! ### What one step can do -/

/-- The events with which a coroutine gets or gives up a descriptor, or starts. -/
def ServerEvent.livens : ServerEvent → Bool
  | .listen _ | .accept _ _ _ | .close _ _ => true
  | _ => false

theorem life_setPhase {co : ℕ} {p : Phase} (h : p.life = (s.coros co).phase.life) (d : ℕ) :
    ((s.setPhase co p).coros d).phase.life = (s.coros d).phase.life := by
  rw [phase_setPhase]
  split_ifs with hd
  · rw [h, hd]
  · rfl

theorem life_startWrite {co : ℕ} {p : Phase} {w : Write}
    (h : p.life = (s.coros co).phase.life) (d : ℕ) :
    ((s.startWrite co p w).coros d).phase.life = (s.coros d).phase.life := by
  rw [startWrite, phase_setWrite]
  exact life_setPhase h d

/-- The other events leave every coroutine its descriptor. -/
theorem life_after (hen : s.Enabled e) (he : e.livens = false) (d : ℕ) :
    ((s.after e).coros d).phase.life = (s.coros d).phase.life := by
  cases e with
  | listen | accept | close => cases he
  | turn co p p' => exact life_setPhase (hen.1.2.1 ▸ hen.2.life) d
  | respond co p fd data => exact life_startWrite (hen.1.2.1 ▸ hen.2.life.symm) d
  | upgrade co fd data => exact life_startWrite (by rw [hen.2.1]; rfl) d
  | pong co fd c payload => exact life_startWrite (by rw [hen.2.1]; rfl) d
  | answerClose co fd c => exact life_startWrite (by rw [hen.1.2.1]; rfl) d
  | connect co fd => exact life_setPhase (by rw [hen.2.1]; rfl) d
  | wsSend | wsClose => exact congrArg Phase.life (phase_setWrite _ _ _ _)
  | send n => exact congrArg Phase.life (s.phase_afterSend n d)
  | sendFails | writeReturns => exact congrArg Phase.life (s.phase_afterWrite d)
  | await => exact congrArg Phase.life (phase_setAwaiting _ _ _ _)
  | resume co fd interest =>
    have hphase : ((s.reactorUnwatchFd fd).setAwaiting co none).coros co
        = { s.coros co with awaiting := none } := Function.update_self _ _ _
    refine (life_setPhase ?_ d).trans (congrArg Phase.life (phase_setAwaiting _ _ _ _))
    rw [hphase, Phase.life_woken]
  | _ => rfl

/-- They leave every socket where it is. -/
theorem socket_after (hen : s.Enabled e) (he : e.livens = false) (fd co : ℕ) :
    (s.after e).files fd = some (.socket co) ↔ s.files fd = some (.socket co) := by
  -- a number that is handed out, or given back, is no socket's
  have hupdate : ∀ (g : ℕ) (f : Option File), s.files g ≠ some (.socket co) →
      f ≠ some (.socket co) →
      (Function.update s.files g f fd = some (.socket co) ↔ s.files fd = some (.socket co)) := by
    intro g f hg hf
    by_cases hfd : fd = g
    · subst hfd
      rw [Function.update_self]
      exact iff_of_false hf hg
    · rw [Function.update_of_ne hfd]
  cases e with
  | listen | accept | close => cases he
  | openFile g => exact hupdate g _ (by rw [hen.1]; simp) (by simp)
  | closeFile g => exact hupdate g _ (by rw [show s.files g = some .other from hen]; simp) (by simp)
  | on k g => exact hupdate g _ (by rw [hen.2.1]; simp) (by simp)
  | send n => rw [after, files_afterSend]
  | sendFails | writeReturns => rw [after, files_afterWrite]
  | wsSend | wsClose => rw [after, files_setWrite]
  | _ => rfl

/-- A connection value keeps its descriptor and its coroutine. -/
theorem conn_after {c : ℕ} (hc : c < s.connCount) :
    c < (s.after e).connCount ∧ SameConn (s.conns c) ((s.after e).conns c) := by
  cases e with
  | connect co fd =>
    have hconn : (s.after (.connect co fd)).conns c = s.conns c :=
      Function.update_of_ne (Nat.ne_of_lt hc) _ _
    rw [hconn]
    exact ⟨Nat.lt_succ_of_lt hc, .refl _⟩
  | wsOn d message =>
    refine ⟨hc, ?_⟩
    by_cases hd : c = d
    · subst hd
      have hconn : (s.after (.wsOn c message)).conns c = (s.conns c).on message :=
        Function.update_self _ _ _
      rw [hconn]
      cases message <;> exact ⟨rfl, rfl, id⟩
    · have hconn : (s.after (.wsOn d message)).conns c = s.conns c := Function.update_of_ne hd _ _
      rw [hconn]
      exact .refl _
  | sendFails | writeReturns => exact ⟨by rwa [after, connCount_afterWrite], conn_afterWrite s c⟩
  | send n =>
    rw [after, connCount_afterSend, conns_afterSend]
    exact ⟨hc, .refl _⟩
  | wsSend | wsClose =>
    rw [after, connCount_setWrite, conns_setWrite]
    exact ⟨hc, .refl _⟩
  | _ => exact ⟨hc, .refl _⟩

theorem coroCount_after (he : e.livens = false) : (s.after e).coroCount = s.coroCount := by
  cases e with
  | listen | accept | close => cases he
  | send n => exact s.coroCount_afterSend n
  | sendFails | writeReturns => exact s.coroCount_afterWrite
  | wsSend | wsClose => exact coroCount_setWrite _ _ _
  | _ => rfl

/-- A connection was there before, or it has just been made by its coroutine. -/
theorem conn_of_after {c : ℕ} (hc : c < (s.after e).connCount) : c < s.connCount ∨
    ∃ co fd, e = .connect co fd ∧ (s.after e).conns c = ⟨⟨none, none, false⟩, fd, co⟩ := by
  cases e with
  | connect co fd =>
    rcases Nat.lt_succ_iff_lt_or_eq.mp hc with hlt | rfl
    · exact .inl hlt
    · exact .inr ⟨co, fd, rfl, Function.update_self _ _ _⟩
  | send n => rw [after, connCount_afterSend] at hc; exact .inl hc
  | sendFails | writeReturns => rw [after, connCount_afterWrite] at hc; exact .inl hc
  | wsSend | wsClose => rw [after, connCount_setWrite] at hc; exact .inl hc
  | _ => exact .inl hc

/-- What the three other events do to the coroutines and their sockets. -/
theorem Owners.livens (h : Owners s) (hen : s.Enabled e) (he : e.livens = true) :
    (∀ co, (s.after e).coroCount ≤ co → ((s.after e).coros co).phase.life = .unborn) ∧
    (∀ fd co, (s.after e).files fd = some (.socket co) ↔
      ((s.after e).coros co).phase.life = .owns fd) ∧
    ∀ co fd, (s.coros co).phase.life = .done ∨ (s.coros co).phase.life = .owns fd →
      ((s.after e).coros co).phase.life = .done ∨
        ((s.after e).coros co).phase.life = .owns fd := by
  have hnew := h.unborn s.coroCount le_rfl
  have hnewFile : ∀ fd, s.files fd ≠ some (.socket s.coroCount) := by
    intro fd hfd
    rw [(h.file fd s.coroCount).mp hfd] at hnew
    cases hnew
  cases e with
  | listen k =>
    have hphase : ∀ d, ((s.after (.listen k)).coros d).phase.life
        = if d = s.coroCount then .accepts else (s.coros d).phase.life := by
      intro d
      rw [after, phase_startCoro]
      split_ifs <;> rfl
    refine ⟨fun co hco => ?_, fun fd co => ?_, fun co fd hlife => ?_⟩
    · have hlt : s.coroCount < co := hco
      rw [hphase, if_neg (Nat.ne_of_gt hlt)]
      exact h.unborn co (Nat.le_of_lt hlt)
    · rw [hphase]
      split_ifs with hco
      · rw [hco]
        exact iff_of_false (hnewFile fd) (by simp)
      · exact h.file fd co
    · rw [hphase]
      split_ifs with hco
      · rw [hco, hnew] at hlife
        rcases hlife with hlife | hlife <;> cases hlife
      · exact hlife
  | accept co k fd =>
    have hphase : ∀ d, ((s.after (.accept co k fd)).coros d).phase.life
        = if d = s.coroCount then .owns fd else (s.coros d).phase.life := by
      intro d
      refine (congrArg Phase.life
        (phase_startCoro (s.setFile fd (some (.socket s.coroCount))) d (.request k fd))).trans ?_
      show Phase.life (if d = s.coroCount then _ else _) = _
      split_ifs <;> rfl
    have hfiles : (s.after (.accept co k fd)).files
        = Function.update s.files fd (some (.socket s.coroCount)) := rfl
    refine ⟨fun d hd => ?_, fun g d => ?_, fun d g hlife => ?_⟩
    · have hlt : s.coroCount < d := hd
      rw [hphase, if_neg (Nat.ne_of_gt hlt)]
      exact h.unborn d (Nat.le_of_lt hlt)
    · rw [hphase, hfiles]
      by_cases hg : g = fd
      · subst hg
        rw [Function.update_self]
        split_ifs with hd
        · exact iff_of_true (by rw [hd]) rfl
        · refine iff_of_false (fun heq => hd ?_) fun hlife => ?_
          · exact (File.socket.inj (Option.some.inj heq)).symm
          · have hfree := hen.2.1
            rw [(h.file g d).mpr hlife] at hfree
            cases hfree
      · rw [Function.update_of_ne hg]
        split_ifs with hd
        · rw [hd]
          exact iff_of_false (hnewFile g) fun heq => hg (Life.owns.inj heq).symm
        · exact h.file g d
    · rw [hphase]
      split_ifs with hd
      · rw [hd, hnew] at hlife
        rcases hlife with hlife | hlife <;> cases hlife
      · exact hlife
  | close co fd =>
    have hphase : ∀ d, ((s.after (.close co fd)).coros d).phase.life
        = if d = co then .done else (s.coros d).phase.life := by
      intro d
      refine (congrArg Phase.life
        (phase_setPhase ((s.setFile fd none).reactorUnwatchFd fd) co d .done)).trans ?_
      split_ifs <;> rfl
    have hfiles : (s.after (.close co fd)).files = Function.update s.files fd none := rfl
    have hown : (s.coros co).phase.life = .owns fd := by rw [hen.2.1]; rfl
    have hfd : s.files fd = some (.socket co) := (h.file fd co).mpr hown
    refine ⟨fun d hd => ?_, fun g d => ?_, fun d g hlife => ?_⟩
    · have hne : d ≠ co := by
        rintro rfl
        rw [h.unborn d hd] at hown
        cases hown
      rw [hphase, if_neg hne]
      exact h.unborn d hd
    · rw [hphase, hfiles]
      by_cases hg : g = fd
      · subst hg
        rw [Function.update_self]
        refine iff_of_false (by simp) fun hlife => ?_
        split_ifs at hlife with hd
        rw [← h.file, hfd] at hlife
        exact hd (File.socket.inj (Option.some.inj hlife)).symm
      · rw [Function.update_of_ne hg]
        split_ifs with hd
        · rw [hd]
          refine iff_of_false (fun heq => ?_) (by simp)
          rw [h.file, hown] at heq
          exact hg (Life.owns.inj heq).symm
        · exact h.file g d
    · rw [hphase]
      split_ifs with hd
      · exact .inl rfl
      · exact hlife
  | _ => cases he

/-- The invariant is kept by every step. -/
theorem Owners.step (h : Owners s) (hen : s.Enabled e) : Owners (s.after e) := by
  have hcoro : (∀ co, (s.after e).coroCount ≤ co → ((s.after e).coros co).phase.life = .unborn) ∧
      (∀ fd co, (s.after e).files fd = some (.socket co) ↔
        ((s.after e).coros co).phase.life = .owns fd) ∧
      ∀ co fd, (s.coros co).phase.life = .done ∨ (s.coros co).phase.life = .owns fd →
        ((s.after e).coros co).phase.life = .done ∨
          ((s.after e).coros co).phase.life = .owns fd := by
    by_cases he : e.livens = true
    · exact h.livens hen he
    · have he' : e.livens = false := Bool.eq_false_iff.mpr he
      refine ⟨fun co hco => ?_, fun fd co => ?_, fun co fd hlife => ?_⟩
      · rw [coroCount_after he'] at hco
        rw [life_after hen he']
        exact h.unborn co hco
      · rw [socket_after hen he', life_after hen he']
        exact h.file fd co
      · rw [life_after hen he']
        exact hlife
  refine ⟨hcoro.1, hcoro.2.1, fun c hc => ?_, fun ctx w c hw hm => ?_⟩
  · rcases conn_of_after hc with hold | ⟨co, fd, rfl, hconn⟩
    · have hconn := (conn_after (e := e) hold).2
      rw [hconn.fd, hconn.owner]
      exact hcoro.2.2 _ _ (h.conn c hold)
    · -- the coroutine that makes a connection goes on with its descriptor
      rw [hconn]
      refine .inr ?_
      rw [life_after hen rfl, hen.2.1]
      rfl
  · rcases write_after hen hw with ⟨w₀, hw₀, hsame⟩ | hfresh
    · obtain ⟨hfd, hc⟩ := h.write ctx w₀ c hw₀ (hsame.purpose ▸ hm)
      obtain ⟨hc', hconn⟩ := conn_after (e := e) hc
      exact ⟨hsame.fd.trans (hfd.trans hconn.fd.symm), hc'⟩
    · obtain ⟨hfd, hc, -⟩ := hfresh.method c hm
      obtain ⟨hc', hconn⟩ := conn_after (e := e) hc
      exact ⟨hfd.trans hconn.fd.symm, hc'⟩

end Step

theorem life_eq_done {p : Phase} : p.life = .done ↔ p = .done := by
  cases p <;> simp [Phase.life]

theorem owners_start : Owners start where
  unborn _ _ := rfl
  file fd co := by
    refine iff_of_false (fun h => ?_) (by simp [start, Phase.life])
    simp only [start] at h
    split_ifs at h
    cases h
  conn c hc := absurd hc (Nat.not_lt_zero c)
  write ctx w c h := by
    cases ctx <;> cases h

theorem owners_of_run {ls : List ServerEvent} {s : Server} (hrun : serverSystem.Run ls s) :
    Owners s := by
  refine LTS.Run.invariant (I := fun _ s => Owners s) ?_ ?_ hrun
  · rintro s rfl
    exact owners_start
  · rintro _ s e s' h ⟨hen, rfl⟩
    exact h.step hen

/-! ### The sends of the methods -/

/-- The events that are a `send()`. -/
def Server.callsSend (s : Server) : ServerEvent → Bool
  | .send _ | .sendFails => true
  | .await co _ _ => (s.coros co).write.isSome
  | _ => false

/-- A `send()` of `ws.send` or `ws.close` goes to the socket of the connection it was called on. -/
def OwnedSend (s : Server) (e : ServerEvent) : Prop :=
  s.callsSend e = true → ∀ w c, s.writeOf s.current = some w → w.purpose.method? = some c →
    s.files w.fd = some (.socket (s.conns c).owner)

/-- A `send()` of `ws.send` or `ws.close` comes before `ws_conn_entry` has returned for the
connection it was called on. -/
def EntryRuns (s : Server) (e : ServerEvent) : Prop :=
  s.callsSend e = true → ∀ w c, s.writeOf s.current = some w → w.purpose.method? = some c →
    (s.coros (s.conns c).owner).phase ≠ .done

/-- `ws_conn_entry` closes a descriptor only when the flag of its connection is set and no
`ws.send` or `ws.close` on it is under way. -/
def ClosesMarked (s : Server) : ServerEvent → Prop
  | .close co _ => ∀ c < s.connCount, (s.conns c).owner = co → (s.conns c).closed = true ∧
    ∀ ctx w, s.writeOf ctx = some w → w.purpose.method? ≠ some c
  | _ => True

/-- Where `ws_conn_entry` has returned the flag is set and no method is under way. -/
def Marked (s : Server) : Prop :=
  ∀ c < s.connCount, (s.coros (s.conns c).owner).phase = .done → (s.conns c).closed = true ∧
    ∀ ctx w, s.writeOf ctx = some w → w.purpose.method? ≠ some c

theorem Owners.ownedSend_iff {s : Server} (h : Owners s) (e : ServerEvent) :
    OwnedSend s e ↔ EntryRuns s e := by
  refine forall_congr' fun _ => forall_congr' fun w => forall_congr' fun c =>
    forall_congr' fun hw => forall_congr' fun hm => ?_
  obtain ⟨hfd, hc⟩ := h.write _ w c hw hm
  rw [hfd, h.file, Ne, ← life_eq_done]
  rcases h.conn c hc with hdone | howns
  · rw [hdone]
    exact iff_of_false (by simp) (by simp)
  · rw [howns]
    exact iff_of_true rfl (by simp)

theorem Marked.step {s : Server} {e : ServerEvent} (h : Marked s) (hen : s.Enabled e)
    (hmarked : ClosesMarked s e) : Marked (s.after e) := by
  intro c hc hdone
  rcases conn_of_after hc with hold | ⟨co, fd, rfl, hconn⟩
  · have hconn := (conn_after (e := e) hold).2
    rw [hconn.owner] at hdone
    have hbefore : (s.conns c).closed = true ∧
        ∀ ctx w, s.writeOf ctx = some w → w.purpose.method? ≠ some c := by
      by_cases he : e.livens = true
      · cases e with
        | listen k =>
          refine h c hold ?_
          rw [after, phase_startCoro] at hdone
          split_ifs at hdone
          exact hdone
        | accept co k fd =>
          refine h c hold ?_
          have hphase := phase_startCoro (s.setFile fd (some (.socket s.coroCount)))
            (s.conns c).owner (.request k fd)
          rw [show (s.after (.accept co k fd)) = _ from rfl, after, hphase] at hdone
          split_ifs at hdone
          exact hdone
        | close co fd =>
          by_cases hco : (s.conns c).owner = co
          · exact hmarked c hold hco
          · refine h c hold ?_
            have hphase := phase_setPhase ((s.setFile fd none).reactorUnwatchFd fd) co
              (s.conns c).owner .done
            rw [if_neg hco] at hphase
            exact hphase.symm.trans hdone
        | _ => cases he
      · refine h c hold ?_
        rwa [← life_eq_done, life_after hen (Bool.eq_false_iff.mpr he), life_eq_done] at hdone
    refine ⟨hconn.closed hbefore.1, fun ctx w hw hm => ?_⟩
    rcases write_after hen hw with ⟨w₀, hw₀, hsame⟩ | hfresh
    · exact hbefore.2 ctx w₀ hw₀ (hsame.purpose ▸ hm)
    · obtain ⟨-, -, hopen⟩ := hfresh.method c hm
      rw [hbefore.1] at hopen
      cases hopen
  · rw [hconn, ← life_eq_done, life_after hen rfl, hen.2.1] at hdone
    cases hdone

/-- **In the runs where every descriptor is closed with the flag set and no method under way, a
method writes to its own connection's socket.** In any run it does so exactly when `ws_conn_entry`
has not returned yet. -/
theorem owned_iff_entryRuns (ls : List ServerEvent) (s : Server) (e : ServerEvent) (s' : Server) :
    ((serverSystem.restrict ClosesMarked).Run ls s →
      (serverSystem.restrict ClosesMarked).step s e s' → OwnedSend s e) ∧
    (serverSystem.Run ls s → serverSystem.step s e s' → (OwnedSend s e ↔ EntryRuns s e)) := by
  refine ⟨fun hrun _ => ?_, fun hrun _ => (owners_of_run hrun).ownedSend_iff e⟩
  have howners := owners_of_run hrun.of_restrict
  have hmarked : Marked s := by
    suffices Owners s ∧ Marked s from this.2
    refine LTS.Run.invariant (I := fun _ s => Owners s ∧ Marked s) ?_ ?_ hrun
    · rintro s rfl
      exact ⟨owners_start, fun c hc => absurd hc (Nat.not_lt_zero c)⟩
    · rintro _ s e s' ⟨h, hm⟩ ⟨⟨hen, rfl⟩, hcond⟩
      exact ⟨h.step hen, hm.step hen hcond⟩
  rw [howners.ownedSend_iff]
  intro _ w c hw hm hdone
  exact (hmarked c (howners.write _ w c hw hm).2 hdone).2 _ w hw hm

/-- The route handler of a connection sends to it, in a run that closes nothing. -/
theorem owned_iff_entryRuns_routeHandler :
    ∃ s, (serverSystem.restrict ClosesMarked).Run (oneConnection ++ [.wsSend 0 (txt "x")]) s ∧
      s.callsSend (.send 3) = true ∧ s.writeOf s.current ≠ none ∧
      OwnedSend s (.send 3) ∧ EntryRuns s (.send 3) := by
  set events : List ServerEvent := oneConnection ++ [.wsSend 0 (txt "x")] with hevents
  have hruns : start.Runs events := by decide +kernel
  have hmeets : Meets ClosesMarked start events := by
    simp [Meets, ClosesMarked, hevents, oneConnection]
  have hen : (events.foldl after start).Enabled (.send 3) := by decide +kernel
  have hrun := hruns.restrict hmeets
  have howned := (owned_iff_entryRuns _ _ (.send 3) _).1 hrun ⟨⟨hen, rfl⟩, trivial⟩
  have hiff := (owned_iff_entryRuns _ _ (.send 3) _).2 hruns.run ⟨hen, rfl⟩
  exact ⟨_, hrun, rfl, by decide +kernel, howned, hiff.mp howned⟩

/-- Connection 0 ends without a Close frame, so that its flag stays clear. The kernel hands out
descriptor 5 again, for the next connection, and what a timer callback then sends to connection 0
goes there. -/
theorem send_to_reused_descriptor :
    ∃ s, serverSystem.Run (oneConnection ++ [.turn 1 (.routeHandler 5 0) (.frames 5 0),
        .turn 1 (.frames 5 0) (.leaving 5 0), .turn 1 (.leaving 5 0) (.closing 5), .close 1 5,
        .accept 0 .ws 5, .await 2 5 .readable, .turn 0 (.accepting .ws) (.listening .ws),
        .await 0 3 .readable, .wsSend 0 (txt "x")]) s ∧
      s.Enabled (.send 3) ∧ s.writeOf s.current = some ⟨5, wsWriteFrame 0x1 (txt "x"), 0, .send 0⟩ ∧
      (s.conns 0).owner = 1 ∧ s.files 5 = some (.socket 2) ∧ ¬ OwnedSend s (.send 3) := by
  refine ⟨_, Runs.run (by decide +kernel), by decide +kernel, by decide +kernel, by decide +kernel,
    by decide +kernel, fun howned => ?_⟩
  have hfile := howned rfl ⟨5, wsWriteFrame 0x1 (txt "x"), 0, .send 0⟩ 0 (by decide +kernel) rfl
  revert hfile
  decide +kernel

end Jaguar
