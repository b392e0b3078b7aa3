/-
**Messages on a connection.**

`AsyncAcceptor::Session` reads the length of a message and then its bytes, in as many reads as the socket
takes.  A read that returns no bytes closes the session.  For a message without bytes the session asks
for none, so that read is one of them: the session is closed, and the messages that follow are lost
(`Acceptor.framing_exact_fails`).

Main definitions:

* `Acceptor.Session` — what was read, and the messages that the callback got;
* `Acceptor.Connection`, `Acceptor.readSystem` — a session, and the bytes that are on their way to it;
* `Acceptor.Arrives` — the property.

Main results:

* `Acceptor.framing_exact` — messages arrive, in order and however the stream is cut, if and only if each
  of them has a byte.
-/

import ResilientDb.Transition
import ResilientDb.Wire

set_option autoImplicit false

namespace Acceptor

open Wire (Bytes leValue frame)

/-! ### The session -/

/-- `AsyncAcceptor::Session`.  `recvBuffer` holds the `current_idx_` bytes that were read. -/
structure Session where
  status : Bool
  needSize : ℕ
  recvBuffer : Bytes
  closed : Bool
  delivered : List Bytes
deriving DecidableEq

namespace Session

/-- `StartRead` of a new session. -/
def start : Session := ⟨false, 8, [], false, []⟩

/-- `ReadDone`, and the `StartRead` it ends with. -/
def readDone (s : Session) : Session :=
  if s.status then
    { start with delivered := s.delivered ++ [s.recvBuffer] }
  else if leValue s.recvBuffer > 10 ^ 10 then { s with closed := true }
  else { s with status := true, needSize := leValue s.recvBuffer, recvBuffer := [] }

/-- What `OnRead` does with the bytes of a read. -/
def onRead (s : Session) (chunk : Bytes) : Session :=
  if chunk = [] then { s with closed := true }
  else
    let s := { s with recvBuffer := s.recvBuffer ++ chunk }
    if s.needSize ≤ s.recvBuffer.length then s.readDone else s

end Session

/-- A session, and the bytes that have not been read. -/
structure Connection where
  session : Session
  stream : Bytes
deriving DecidableEq

/-- A connection on which messages have been sent. -/
def Connection.start (messages : List Bytes) : Connection := ⟨.start, messages.flatMap (frame 8)⟩

/-- A read returns `n` bytes, at least one and not more than it was asked for.  A read that is asked for
nothing returns nothing. -/
def Connection.step (c : Connection) (n : ℕ) : Option Connection :=
  let size := c.session.needSize - c.session.recvBuffer.length
  if c.session.closed = false ∧ n ≤ size ∧ n ≤ c.stream.length ∧ (n = 0 → size = 0) then
    some ⟨c.session.onRead (c.stream.take n), c.stream.drop n⟩
  else none

/-- The reads of a session to which the messages are sent. -/
def readSystem (messages : List Bytes) : TransitionSystem Connection ℕ where
  init c := c = .start messages
  step := Connection.step

/-- **The messages arrive**, in order and once each: however the stream is cut, it is read to its end, and
then the callback has got them. -/
def Arrives (messages : List Bytes) : Prop :=
  ∀ c, (readSystem messages).Reachable TransitionSystem.always c →
    (c.stream ≠ [] → (c.step 1).isSome) ∧
      (∀ n c', c.step n = some c' → c'.stream.length < c.stream.length) ∧
      (c.stream = [] → c.session.delivered = messages)

/-! ### The invariant -/

/-- Where a session stands: it has delivered some messages, and reads the length or the bytes of the
next one. -/
inductive Reads (messages delivered : List Bytes) : Bool → ℕ → Bytes → Prop
  | header (rest : List Bytes) (hrest : messages = delivered ++ rest) :
      Reads messages delivered false 8 (rest.flatMap (frame 8))
  | body (m : Bytes) (rest : List Bytes) (hrest : messages = delivered ++ m :: rest) :
      Reads messages delivered true m.length (m ++ rest.flatMap (frame 8))

/-- The session is open, and waits for at least one byte. -/
structure Connection.Inv (messages : List Bytes) (c : Connection) : Prop where
  opened : c.session.closed = false
  waits : c.session.recvBuffer.length < c.session.needSize
  reads : Reads messages c.session.delivered c.session.status c.session.needSize
    (c.session.recvBuffer ++ c.stream)

variable {messages : List Bytes} {c c' : Connection} {n : ℕ}

/-- A read moves bytes from the stream to the buffer. -/
theorem Connection.step_cases (h : c.Inv messages) (hs : c.step n = some c') :
    ∃ chunk stream, chunk ≠ [] ∧ c.stream = chunk ++ stream ∧
      c.session.recvBuffer.length + chunk.length ≤ c.session.needSize ∧
      c' = ⟨c.session.onRead chunk, stream⟩ := by
  unfold Connection.step at hs
  dsimp only at hs
  split_ifs at hs with hn
  cases hs
  have hwaits := h.waits
  refine ⟨c.stream.take n, c.stream.drop n, ?_, (List.take_append_drop n _).symm, ?_, rfl⟩
  · rw [Ne, ← List.length_eq_zero_iff, List.length_take]
    omega
  · rw [List.length_take]
    omega

/-- After a length its message is read, and after a message the next length. -/
theorem Session.readDone_inv {s : Session} {stream : Bytes}
    (hm : ∀ m ∈ messages, m ≠ [] ∧ m.length ≤ 10 ^ 10) (hclosed : s.closed = false)
    (hne : s.recvBuffer ≠ []) (hlen : s.recvBuffer.length = s.needSize)
    (h : Reads messages s.delivered s.status s.needSize (s.recvBuffer ++ stream)) :
    Connection.Inv messages ⟨s.readDone, stream⟩ := by
  obtain ⟨status, needSize, buffer, closed, delivered⟩ := s
  unfold Session.readDone
  dsimp only
  generalize hbytes : buffer ++ stream = bytes at h
  cases h with
  | header rest hrest =>
    cases rest with
    | nil => exact absurd (List.append_eq_nil_iff.1 hbytes).1 hne
    | cons m rest =>
      have hmem := hm m (by simp [hrest])
      rw [List.flatMap_cons, frame, List.append_assoc] at hbytes
      obtain ⟨rfl, rfl⟩ := List.append_inj hbytes (hlen.trans (Wire.length_leBytes _ _).symm)
      have hsize := Wire.leValue_leBytes 8 (hmem.2.trans_lt (by norm_num))
      rw [if_neg Bool.false_ne_true, if_neg (by omega), hsize]
      exact ⟨hclosed, List.length_pos_iff.2 hmem.1, .body m rest hrest⟩
  | body m rest hrest =>
    obtain ⟨rfl, rfl⟩ := List.append_inj hbytes hlen
    refine ⟨rfl, Nat.succ_pos 7, .header rest ?_⟩
    rw [hrest, List.append_cons]
    rfl

theorem Connection.Inv.step (hm : ∀ m ∈ messages, m ≠ [] ∧ m.length ≤ 10 ^ 10)
    (h : c.Inv messages) (hs : c.step n = some c') :
    c'.Inv messages ∧ c'.stream.length < c.stream.length := by
  obtain ⟨chunk, stream, hchunk, hcut, hle, rfl⟩ := step_cases h hs
  have hreads := h.reads
  rw [hcut, ← List.append_assoc] at hreads
  rw [← List.length_append] at hle
  constructor
  · unfold Session.onRead
    rw [if_neg hchunk]
    dsimp only
    split_ifs with hfull
    · exact Session.readDone_inv hm h.opened (List.append_ne_nil_of_right_ne_nil _ hchunk)
        (hle.antisymm hfull) hreads
    · exact ⟨h.opened, not_le.1 hfull, hreads⟩
  · rw [hcut, List.length_append]
    exact Nat.lt_add_of_pos_left (List.length_pos_iff.2 hchunk)

theorem Connection.Inv.delivered (h : c.Inv messages) (hstream : c.stream = []) :
    c.session.delivered = messages := by
  have hwaits := h.waits
  have hreads := h.reads
  rw [hstream, List.append_nil] at hreads
  generalize c.session.needSize = needSize at hwaits hreads
  generalize c.session.recvBuffer = buffer, c.session.status = status at hwaits hreads
  cases hreads with
  | header rest hrest =>
    cases rest with
    | nil => rw [hrest, List.append_nil]
    | cons m rest =>
      rw [List.flatMap_cons, List.length_append, Wire.length_frame] at hwaits
      omega
  | body m rest hrest =>
    rw [List.length_append] at hwaits
    omega

theorem Connection.Inv.step_isSome (h : c.Inv messages) (hstream : c.stream ≠ []) :
    (c.step 1).isSome := by
  have hwaits := h.waits
  have hpos := List.length_pos_iff.2 hstream
  unfold Connection.step
  rw [if_pos ⟨h.opened, by omega, by omega, by omega⟩]
  rfl

theorem arrives_of_ne_nil (hm : ∀ m ∈ messages, m ≠ [] ∧ m.length ≤ 10 ^ 10) : Arrives messages := by
  intro c h
  have hinv : c.Inv messages := by
    refine h.invariant ?_ fun c n c' hc _ hs => (hc.step hm hs).1
    rintro _ rfl
    exact ⟨rfl, Nat.succ_pos 7, .header messages rfl⟩
  exact ⟨hinv.step_isSome, fun n c' hs => (hinv.step hm hs).2, hinv.delivered⟩

/-! ### Messages without bytes -/

/-- A message is passed to the callback after a read with bytes of it. -/
theorem Session.delivered_onRead {s : Session} (h : ∀ m ∈ s.delivered, m ≠ []) (chunk : Bytes) :
    ∀ m ∈ (s.onRead chunk).delivered, m ≠ [] := by
  unfold Session.onRead
  dsimp only
  split_ifs with hchunk
  · exact h
  · unfold Session.readDone
    dsimp only
    split_ifs
    · intro m hmem
      rcases List.mem_append.1 hmem with hmem | hmem
      · exact h m hmem
      · rw [List.mem_singleton.1 hmem]
        exact List.append_ne_nil_of_right_ne_nil _ hchunk
    · exact h
    · exact h
  · exact h

theorem ne_nil_of_delivered (h : (readSystem messages).Reachable TransitionSystem.always c) :
    ∀ m ∈ c.session.delivered, m ≠ [] := by
  refine h.invariant (I := fun c => ∀ m ∈ c.session.delivered, m ≠ []) ?_ fun c n c' hc _ hs => ?_
  · rintro _ rfl
    exact nofun
  · dsimp only [readSystem, Connection.step] at hs
    split_ifs at hs
    cases hs
    exact Session.delivered_onRead hc _

/-- If the messages arrive, some run reads the stream to its end: one byte at a time does. -/
theorem Arrives.exists_end (h : Arrives messages) (c : Connection)
    (hc : (readSystem messages).Reachable TransitionSystem.always c) :
    ∃ c', (readSystem messages).Reachable TransitionSystem.always c' ∧ c'.stream = [] := by
  by_cases hstream : c.stream = []
  · exact ⟨c, hc, hstream⟩
  · obtain ⟨hsome, hshorter, -⟩ := h c hc
    obtain ⟨c', hs⟩ := Option.isSome_iff_exists.1 (hsome hstream)
    have hdecreases := hshorter 1 c' hs
    exact h.exists_end c' (hc.step trivial hs)
termination_by c.stream.length

/-- **Messages arrive if and only if each of them has a byte.**  If one has none, there is no run in which
the callback gets them. -/
theorem framing_exact (hm : ∀ m ∈ messages, m.length ≤ 10 ^ 10) :
    (Arrives messages ↔ ∀ m ∈ messages, m ≠ []) ∧
      ∀ c, (readSystem messages).Reachable TransitionSystem.always c →
        c.session.delivered = messages → ∀ m ∈ messages, m ≠ [] := by
  have hnone : ∀ c, (readSystem messages).Reachable TransitionSystem.always c →
      c.session.delivered = messages → ∀ m ∈ messages, m ≠ [] := by
    intro c hc heq
    rw [← heq]
    exact ne_nil_of_delivered hc
  refine ⟨⟨fun h => ?_, fun h => arrives_of_ne_nil fun m hmem => ⟨h m hmem, hm m hmem⟩⟩, hnone⟩
  obtain ⟨c, hc, hstream⟩ := h.exists_end _ (.init rfl)
  exact hnone c hc ((h c hc).2.2 hstream)

/-- Two messages, in six reads. -/
theorem framing_exact_two :
    ∃ c, (readSystem [[1, 2], [3]]).run (.start [[1, 2], [3]]) [3, 5, 1, 1, 8, 1] = some c ∧
      c.session.delivered = [[1, 2], [3]] := by
  obtain ⟨c, hrun, hreach, hstream⟩ := (readSystem [[1, 2], [3]]).exists_run
    (P := fun c => c.stream = []) [3, 5, 1, 1, 8, 1] rfl (TransitionSystem.guarded_always _ _)
    (by decide +kernel)
  exact ⟨c, hrun, ((framing_exact (by decide)).1.2 (by decide) c hreach).2.2 hstream⟩

/-- A message without bytes, and one that is lost. -/
theorem framing_exact_fails :
    ∃ c, (readSystem [[], [3]]).Reachable TransitionSystem.always c ∧ c.session.closed ∧
      c.session.delivered = [] :=
  (readSystem [[], [3]]).exists_reachable_always (s := .start [[], [3]]) [8, 0] rfl
    (by decide +kernel)

end Acceptor
