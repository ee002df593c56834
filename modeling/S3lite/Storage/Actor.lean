/-
  S3lite.Storage.Actor — the thread that owns the database, and its mailbox
  (src/storage/db/mod.rs, `actor::run`).

  A handler sends an operation with a channel of its own for the reply (`dispatch`), waiting while
  256 messages are queued, and then waits for the reply. A request that is dropped stops waiting.
  Dropping the store sends a last message without waiting, and joins the thread.
  - `dispatch_linearizes`: to the handlers the operations are atomic: every reply is the one of the
    operations done one after the other, in an order that respects what came back before what was
    sent.
  - `drop_returns_iff`: dropping the store returns exactly if the mailbox has room, and then
    everything that was sent is done.
-/
import S3lite.Base.Mailbox
import S3lite.Safety.Pool

namespace S3lite

inductive ActorMessage where
  | op (ticket : Nat) (op : MetaOp)
  | shutdown

/-- The operation that a message carries. -/
def ActorMessage.request : ActorMessage → Option (Nat × MetaOp)
  | .op ticket o => some (ticket, o)
  | .shutdown => none

def ActorMessage.ofRequest (r : Nat × MetaOp) : ActorMessage := .op r.1 r.2

structure MetaStore where
  db : Db
  clock : Nat
  mailbox : List ActorMessage
  /-- What was replied and not taken yet. -/
  replies : Nat → Option (Σ op : MetaOp, op.Res)
  issued : Nat
  /-- The thread has not left its loop. -/
  running : Bool
  dropped : Bool

namespace MetaStore

/-- `mpsc::channel(256)` -/
def channelCapacity : Nat := 256

/-- An operation in its transaction, with what the clock reads. -/
def perform (env : Env) (op : MetaOp) (s : Db × Nat) : op.Res × Db × Nat :=
  let r := op.exec (env.now s.2) (env.now (s.2 + 1)) s.1
  (r.1, r.2, s.2 + 2)

def opened (db : Db) (clock : Nat) : MetaStore := ⟨db, clock, [], fun _ => none, 0, true, false⟩

/-- The first half of `dispatch`. -/
def send (m : MetaStore) (op : MetaOp) : MetaStore :=
  { m with mailbox := m.mailbox ++ [.op m.issued op], issued := m.issued + 1 }

/-- Its other half. -/
def take (m : MetaStore) (ticket : Nat) : MetaStore := { m with replies := Function.update m.replies ticket none }

/-- One turn of the loop of `run`, which waits while there is no message. -/
def turn (env : Env) (m : MetaStore) : MetaStore :=
  if m.running then
    match m.mailbox with
    | [] => m
    | .shutdown :: _ => { m with mailbox := [], running := false }
    | .op ticket op :: rest =>
      let r := perform env op (m.db, m.clock)
      { m with db := r.2.1, clock := r.2.2, mailbox := rest, replies := Function.update m.replies ticket (some ⟨op, r.1⟩) }
  else m

/-- `Drop`, before it joins the thread. -/
def drop (m : MetaStore) : MetaStore :=
  { m with mailbox := if m.mailbox.length < channelCapacity then m.mailbox ++ [.shutdown] else m.mailbox, dropped := true }

abbrev History := List (Mailbox.Event MetaOp MetaOp.Res)

abbrev Done := List (Mailbox.Handled MetaOp MetaOp.Res)

variable (env : Env) (db0 : Db) (clock0 : Nat)

/-- What handlers and thread do, with the operations done so far. -/
inductive Runs : History → Done → MetaStore → Prop
  | opened : Runs [] [] (.opened db0 clock0)
  | send {history done m} (op : MetaOp) : Runs history done m → m.dropped = false → m.mailbox.length < channelCapacity →
      Runs (history ++ [.called m.issued op]) done (m.send op)
  | handle {history done m ticket op rest} : Runs history done m → m.running = true → m.mailbox = .op ticket op :: rest →
      Runs history (done ++ [(ticket, ⟨op, (perform env op (m.db, m.clock)).1⟩)]) (m.turn env)
  | shutdown {history done m rest} : Runs history done m → m.running = true → m.mailbox = .shutdown :: rest →
      Runs history done (m.turn env)
  | take {history done m ticket r} : Runs history done m → m.replies ticket = some r →
      Runs (history ++ [.returned ticket r]) done (m.take ticket)
  | drop {history done m} : Runs history done m → m.dropped = false → Runs history done m.drop

/-- The operations that wait in the mailbox. -/
def requests (m : MetaStore) : List (Nat × MetaOp) := m.mailbox.filterMap ActorMessage.request

def box (m : MetaStore) : Mailbox (Db × Nat) MetaOp MetaOp.Res := ⟨(m.db, m.clock), m.requests, m.replies, m.issued⟩

/-- Operations wait in the mailbox, and behind them the last message, if the store was dropped; a
    thread that has left its loop has left nothing there. -/
structure Orderly (m : MetaStore) : Prop where
  waiting : ∃ ops : List (Nat × MetaOp), m.mailbox = ops.map .ofRequest ∨ m.dropped = true ∧ m.mailbox = ops.map .ofRequest ++ [.shutdown]
  live : m.dropped = false → m.running = true
  left : m.running = false → m.mailbox = []

variable {env db0 clock0} {history : History} {done : Done} {m : MetaStore}

theorem turn_op (hrun : m.running = true) {ticket : Nat} {op : MetaOp} {rest : List ActorMessage}
    (hbox : m.mailbox = .op ticket op :: rest) :
    m.turn env = { m with db := (perform env op (m.db, m.clock)).2.1, clock := (perform env op (m.db, m.clock)).2.2, mailbox := rest,
                          replies := Function.update m.replies ticket (some ⟨op, (perform env op (m.db, m.clock)).1⟩) } := by
  rw [turn, if_pos hrun, hbox]

theorem turn_shutdown (hrun : m.running = true) {rest : List ActorMessage} (hbox : m.mailbox = .shutdown :: rest) :
    m.turn env = { m with mailbox := [], running := false } := by
  rw [turn, if_pos hrun, hbox]

/-- Before it is dropped a store's mailbox holds operations only. -/
theorem Orderly.undropped (h : m.Orderly) (hd : m.dropped = false) : ∃ ops : List (Nat × MetaOp), m.mailbox = ops.map .ofRequest := by
  obtain ⟨ops, hops | hops⟩ := h.waiting
  · exact ⟨ops, hops⟩
  · rw [hd] at hops
    cases hops.1

theorem Runs.orderly (h : Runs env db0 clock0 history done m) : m.Orderly := by
  induction h with
  | opened => exact ⟨⟨[], Or.inl rfl⟩, fun _ => rfl, (fun h => by cases h)⟩
  | @send history done m op _ hd _ ih =>
    obtain ⟨ops, hops⟩ := ih.undropped hd
    refine ⟨⟨ops ++ [(m.issued, op)], Or.inl ?_⟩, ih.live, fun hrun => ?_⟩
    · show m.mailbox ++ [.op m.issued op] = _
      rw [hops, List.map_append]
      rfl
    · have hlive : m.running = false := hrun
      rw [ih.live hd] at hlive
      cases hlive
  | @handle history done m ticket op rest _ hrun hbox ih =>
    rw [turn_op hrun hbox]
    obtain ⟨ops, hops⟩ := ih.waiting
    rw [hbox] at hops
    refine ⟨⟨ops.tail, ?_⟩, ih.live, fun hstop => ?_⟩
    · cases ops with
      | nil =>
        rcases hops with hops | ⟨-, hops⟩
        · cases hops
        · cases hops
      | cons r ops => exact hops.imp (fun hops => (List.cons.inj hops).2) fun hops => ⟨hops.1, (List.cons.inj hops.2).2⟩
    · rw [hrun] at hstop
      cases hstop
  | @shutdown history done m rest _ hrun hbox ih =>
    rw [turn_shutdown hrun hbox]
    refine ⟨⟨[], Or.inl rfl⟩, fun hd => ?_, fun _ => rfl⟩
    obtain ⟨ops, hops⟩ := ih.undropped hd
    rw [hbox] at hops
    cases ops with
    | nil => cases hops
    | cons r ops => cases hops
  | take _ _ ih => exact ⟨ih.waiting, ih.live, ih.left⟩
  | @drop history done m _ hd ih =>
    obtain ⟨ops, hops⟩ := ih.undropped hd
    refine ⟨⟨ops, ?_⟩, (fun hd' => by cases hd'), fun hrun => ?_⟩
    · rw [MetaStore.drop, hops]
      split
      · exact Or.inr ⟨rfl, rfl⟩
      · exact Or.inl rfl
    · have hlive : m.running = false := hrun
      rw [ih.live hd] at hlive
      cases hlive

/-- The thread with its mailbox is a server behind a queue. -/
theorem Runs.boxed (h : Runs env db0 clock0 history done m) :
    Mailbox.Runs (perform env) channelCapacity (db0, clock0) history done m.box := by
  induction h with
  | opened => exact .start
  | @send history done m op _ _ hroom ih =>
    have hlen : m.requests.length < channelCapacity := Nat.lt_of_le_of_lt (List.length_filterMap_le _ _) hroom
    have hbox : (m.send op).requests = m.requests ++ [(m.issued, op)] := List.filterMap_append
    rw [box, hbox]
    exact .call op ih hlen
  | @handle history done m ticket op rest _ hrun hbox ih =>
    have hqueue : m.requests = (ticket, op) :: rest.filterMap ActorMessage.request := by
      rw [requests, hbox]
      rfl
    rw [turn_op hrun hbox]
    exact .handle ih hqueue
  | @shutdown history done m rest h hrun hbox ih =>
    have hqueue : m.requests = [] := by
      obtain ⟨ops, hops | hops⟩ := h.orderly.waiting
      · rw [hbox] at hops
        cases ops <;> cases hops
      · rw [requests, hbox]
        rw [hbox] at hops
        cases ops with
        | nil =>
          cases hops.2
          rfl
        | cons r ops => cases hops.2
    have hsame : (m.turn env).box = m.box := by
      rw [turn_shutdown hrun hbox, box, box, hqueue]
      rfl
    rw [hsame]
    exact ih
  | take _ hready ih => exact .take ih hready
  | @drop history done m _ _ ih =>
    have hsame : m.drop.box = m.box := by
      have hrequests : m.drop.requests = m.requests := by
        rw [requests, MetaStore.drop]
        dsimp only
        split
        · exact List.filterMap_append.trans (List.append_nil _)
        · rfl
      rw [box, hrequests]
      rfl
    rw [hsame]
    exact ih

theorem dispatch_linearizes (h : Runs env db0 clock0 history done m) :
    Mailbox.Linearizes (perform env) (db0, clock0) history done := h.boxed.linearizes

/-- The first of two callers does not wait for its reply. -/
theorem dispatch_linearizes_two_callers : ∃ done, Mailbox.Linearizes (perform sampleEnv) (.empty, 0)
    [.called 0 (.createBucket (str "bucket") ⟨0, .off, [], [], none, []⟩), .called 1 (.getBucket (str "bucket")),
      .returned 1 ⟨.getBucket (str "bucket"), some ⟨0, .off, [], [], none, []⟩⟩] done := by
  have hopened : Runs sampleEnv .empty 0 [] [] (.opened .empty 0) := .opened
  have hsent := (hopened.send (.createBucket (str "bucket") ⟨0, .off, [], [], none, []⟩) rfl (by decide)).send
    (.getBucket (str "bucket")) rfl (by decide)
  have hdone := (hsent.handle rfl rfl).handle rfl rfl
  exact ⟨_, dispatch_linearizes (hdone.take (show _ = some (⟨.getBucket (str "bucket"), _⟩ : Σ op : MetaOp, op.Res) from rfl))⟩

/-! ## Drop -/

theorem Runs.turns (h : Runs env db0 clock0 history done m) (n : Nat) : ∃ done', Runs env db0 clock0 history done' ((turn env)^[n] m) := by
  induction n generalizing done m with
  | zero => exact ⟨done, h⟩
  | succ n ih =>
    rw [Function.iterate_succ_apply]
    by_cases hrun : m.running = true
    · cases hbox : m.mailbox with
      | nil =>
        have hsame : m.turn env = m := by rw [turn, if_pos hrun, hbox]
        rw [hsame]
        exact ih h
      | cons a rest =>
        cases a with
        | op ticket op => exact ih (.handle h hrun hbox)
        | shutdown => exact ih (.shutdown h hrun hbox)
    · have hsame : m.turn env = m := if_neg hrun
      rw [hsame]
      exact ih h

/-- The thread goes through operations and stops at the last message. -/
theorem drains (hrun : m.running = true) {ops : List (Nat × MetaOp)} (hbox : m.mailbox = ops.map .ofRequest ++ [.shutdown]) :
    ∃ n, ((turn env)^[n] m).running = false := by
  induction ops generalizing m with
  | nil =>
    refine ⟨1, ?_⟩
    show (m.turn env).running = false
    rw [turn_shutdown hrun hbox]
  | cons r ops ih =>
    have hnext : (m.turn env).running = true ∧ (m.turn env).mailbox = ops.map .ofRequest ++ [.shutdown] := by
      rw [turn_op hrun hbox]
      exact ⟨hrun, rfl⟩
    obtain ⟨n, hstop⟩ := ih hnext.1 hnext.2
    exact ⟨n + 1, hstop⟩

/-- With operations only, it waits for more in the end. -/
theorem waits (hrun : m.running = true) {ops : List (Nat × MetaOp)} (hbox : m.mailbox = ops.map .ofRequest) (n : Nat) :
    ((turn env)^[n] m).running = true := by
  induction n generalizing m ops with
  | zero => exact hrun
  | succ n ih =>
    rw [Function.iterate_succ_apply]
    cases ops with
    | nil =>
      have hsame : m.turn env = m := by rw [turn, if_pos hrun, hbox]; rfl
      rw [hsame]
      exact ih hrun hbox
    | cons r ops =>
      rw [turn_op hrun hbox]
      exact ih hrun rfl

/-- `Drop` returns when the thread has left its loop; everything that was sent is done then. -/
theorem drop_returns_iff (h : Runs env db0 clock0 history done m) (hd : m.dropped = false) :
    ((∃ n, ((turn env)^[n] m.drop).running = false) ↔ m.mailbox.length < channelCapacity) ∧
      ∀ n, ((turn env)^[n] m.drop).running = false → ∃ done', Runs env db0 clock0 history done' ((turn env)^[n] m.drop) ∧
        Mailbox.callsOf history = done'.map fun e => (e.1, e.2.1) := by
  have hrun := h.orderly.live hd
  obtain ⟨ops, hops⟩ := h.orderly.undropped hd
  refine ⟨⟨fun hreturns => ?_, fun hroom => ?_⟩, fun n hstop => ?_⟩
  · obtain ⟨n, hstop⟩ := hreturns
    by_contra hfull
    have hbox : m.drop.mailbox = ops.map .ofRequest := (if_neg hfull).trans hops
    have hgoes : ((turn env)^[n] m.drop).running = true := waits (show m.drop.running = true from hrun) hbox n
    rw [hstop] at hgoes
    cases hgoes
  · have hbox : m.drop.mailbox = ops.map .ofRequest ++ [.shutdown] := (if_pos hroom).trans (by rw [hops])
    exact drains (show m.drop.running = true from hrun) hbox
  · obtain ⟨done', hruns⟩ := (Runs.drop h hd).turns n
    have hcalls := hruns.boxed.calls
    have hnone : ((turn env)^[n] m.drop).requests = [] := by
      rw [requests, hruns.orderly.left hstop]
      rfl
    rw [box, hnone, List.append_nil] at hcalls
    exact ⟨done', hruns, hcalls⟩

/-- Any number of messages can be queued. -/
theorem exists_queued (env : Env) (db0 : Db) (clock0 : Nat) {n : Nat} (hn : n ≤ channelCapacity) :
    ∃ history m, Runs env db0 clock0 history [] m ∧ m.dropped = false ∧ m.mailbox.length = n := by
  induction n with
  | zero => exact ⟨_, _, .opened, rfl, rfl⟩
  | succ n ih =>
    obtain ⟨history, m, hm, hd, hlen⟩ := ih (by omega)
    exact ⟨_, _, hm.send .listBuckets hd (by omega), hd, by rw [send, List.length_append, hlen, List.length_singleton]⟩

/-- With one message queued, and with the mailbox full. -/
theorem drop_returns_iff_full :
    (∃ history m, Runs sampleEnv .empty 0 history [] m ∧ m.mailbox.length = 1 ∧ ∃ n, ((turn sampleEnv)^[n] m.drop).running = false) ∧
      ∃ history m, Runs sampleEnv .empty 0 history [] m ∧ ∀ n, ((turn sampleEnv)^[n] m.drop).running = true := by
  obtain ⟨history, m, hm, hd, hlen⟩ := exists_queued sampleEnv .empty 0 (n := 1) (by decide)
  obtain ⟨history', m', hm', hd', hfull⟩ := exists_queued sampleEnv .empty 0 (n := channelCapacity) (by decide)
  refine ⟨⟨history, m, hm, hlen, (drop_returns_iff hm hd).1.mpr (by rw [hlen]; decide)⟩, history', m', hm', fun n => ?_⟩
  by_contra hstop
  have hroom := (drop_returns_iff hm' hd').1.mp ⟨n, Bool.eq_false_iff.mpr hstop⟩
  omega

end MetaStore

end S3lite
