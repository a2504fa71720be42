import IvyBus.FifoLaws
import IvyBus.Lib.Run
import IvyBus.Socket.Send

namespace IvyBus.Socket

open Lib Fifo

def Client.pending (client : Client) : Str :=
  match client.ifb with
  | none => []
  | some ifb => queue ifb

/-- All the bytes a client has accepted, in the order of the wire. -/
def Client.stream (client : Client) : Str := client.kernel ++ client.pending

structure Client.Wf (client : Client) : Prop where
  fifo : ∀ ifb, client.ifb = some ifb → Fifo.Wf ifb
  writable : client.writable = client.ifb.isSome

theorem wf_init : Client.init.Wf := ⟨nofun, rfl⟩

/-- What becomes of a block passed to `BufferizedSocketSendRaw`. -/
inductive Fate
  | sent
  | split (k : Nat)
  | headOnly (k : Nat)
  | queued
  | lost
  deriving DecidableEq

def Fate.part (b : Str) : Fate → Str
  | .sent => b
  | .split k => b.take k ++ b.drop k
  | .headOnly k => b.take k
  | .queued => b
  | .lost => []

def fate (client : Client) (b : Str) (r : SendResult) : Fate :=
  match client.ifb, r with
  | some ifb, _ => if takes ifb b.length then .queued else .lost
  | none, .room k =>
    if b.length ≤ k then .sent
    else if takes ivyFifoNew (b.length - k) then .split k
    else .headOnly k
  | none, .wouldBlock => if takes ivyFifoNew b.length then .queued else .lost
  | none, .error => .lost

theorem congest_wf (client : Client) {tail : Str} (h : tail.length < uintRange / 2) :
    (congest client tail).Wf := by
  refine ⟨fun ifb hifb => ?_, rfl⟩
  rw [← Option.some.inj hifb]
  exact wf_ivyFifoNew.write (h.trans (by decide))

theorem congest_stream {client : Client} {tail : Str} (h : tail.length < uintRange / 2) :
    (congest client tail).stream =
      client.kernel ++ if takes ivyFifoNew tail.length then tail else [] := by
  change client.kernel ++ queue (ivyFifoWrite ivyFifoNew tail) = _
  rw [wf_ivyFifoNew.write_block h, queue_ivyFifoNew, List.nil_append]

theorem stream_of_none {client : Client} (h : client.ifb = none) :
    client.stream = client.kernel := by
  rw [Client.stream, Client.pending, h, List.append_nil]

theorem bufferizedSocketSendRaw_congested {client : Client} {ifb : IvyFifoBuffer}
    (h : client.ifb = some ifb) (b : Str) (r : SendResult) :
    (bufferizedSocketSendRaw client b r).1 =
      { client with ifb := some (ivyFifoWrite ifb b) } := by
  simp only [bufferizedSocketSendRaw, h]

theorem bufferizedSocketSendRaw_all {client : Client} (h : client.ifb = none) {b : Str} {k : Nat}
    (hk : b.length ≤ k) : bufferizedSocketSendRaw client b (.room k) =
      ({ client with kernel := client.kernel ++ b }, .sendOk) := by
  simp only [bufferizedSocketSendRaw, h, SendResult.ret, SendResult.taken, Nat.min_eq_right hk,
    if_pos, List.take_length]

theorem bufferizedSocketSendRaw_short {client : Client} (h : client.ifb = none) {b : Str}
    {k : Nat} (hk : k < b.length) : bufferizedSocketSendRaw client b (.room k) =
      (congest { client with kernel := client.kernel ++ b.take k } (b.drop k),
        .sendStateChangeToCongestion) := by
  simp only [bufferizedSocketSendRaw, h, SendResult.ret, SendResult.taken,
    Nat.min_eq_left hk.le, Int.toNat_natCast]
  rw [if_neg (by omega), if_neg (by omega)]

theorem bufferizedSocketSendRaw_wouldBlock {client : Client} (h : client.ifb = none) (b : Str) :
    bufferizedSocketSendRaw client b .wouldBlock =
      (congest client b, .sendStateChangeToCongestion) := by
  simp only [bufferizedSocketSendRaw, h, SendResult.ret, SendResult.taken, List.take_zero,
    List.append_nil]
  rw [if_neg (by omega), if_pos trivial, if_pos trivial]
  simp only [congest]

theorem bufferizedSocketSendRaw_error {client : Client} (h : client.ifb = none) (b : Str) :
    bufferizedSocketSendRaw client b .error = (client, .sendError) := by
  simp only [bufferizedSocketSendRaw, h, SendResult.ret, SendResult.taken, List.take_zero,
    List.append_nil]
  rw [if_neg (by omega), if_pos trivial, if_neg (by simp), ← h]

theorem bufferizedSocketSendRaw_spec {client : Client} (h : client.Wf) {b : Str}
    (hb : b.length < uintRange / 2) (r : SendResult) :
    (bufferizedSocketSendRaw client b r).1.Wf ∧
      (bufferizedSocketSendRaw client b r).1.stream =
        client.stream ++ (fate client b r).part b := by
  cases hifb : client.ifb with
  | some ifb =>
    have hwf := h.fifo ifb hifb
    have hwrite := hwf.write (hb.trans (by decide))
    rw [bufferizedSocketSendRaw_congested hifb]
    simp only [fate, hifb]
    refine ⟨⟨fun g hg => Option.some.inj hg ▸ hwrite, by rw [h.writable, hifb]; rfl⟩, ?_⟩
    simp only [Client.stream, Client.pending, hifb, hwf.write_block hb, List.append_assoc]
    split <;> rfl
  | none =>
    have hstream := stream_of_none hifb
    cases r with
    | room k =>
      simp only [fate, hifb]
      by_cases hk : b.length ≤ k
      · rw [bufferizedSocketSendRaw_all hifb hk, if_pos hk]
        exact ⟨⟨h.fifo, h.writable⟩, by rw [hstream]; exact stream_of_none hifb⟩
      · have htail : (b.drop k).length < uintRange / 2 := by
          rw [List.length_drop]
          exact (Nat.sub_le ..).trans_lt hb
        rw [bufferizedSocketSendRaw_short hifb (by omega), if_neg hk]
        refine ⟨congest_wf _ htail, ?_⟩
        rw [congest_stream htail, List.length_drop, hstream]
        split <;> simp [Fate.part]
    | wouldBlock =>
      rw [bufferizedSocketSendRaw_wouldBlock hifb]
      refine ⟨congest_wf _ hb, ?_⟩
      rw [congest_stream hb, hstream]
      simp only [fate, hifb]
      split <;> rfl
    | error =>
      rw [bufferizedSocketSendRaw_error hifb]
      simp only [fate, hifb]
      exact ⟨h, (List.append_nil _).symm⟩

theorem kernel_of_pending {client : Client} (h : client.pending ≠ []) (b : Str)
    (r : SendResult) : (bufferizedSocketSendRaw client b r).1.kernel = client.kernel := by
  cases hifb : client.ifb with
  | some ifb => simp only [bufferizedSocketSendRaw, hifb]
  | none => exact absurd (by rw [Client.pending, hifb]) h

theorem kernel_prefix (client : Client) (b : Str) (r : SendResult) :
    client.kernel <+: (bufferizedSocketSendRaw client b r).1.kernel := by
  rw [bufferizedSocketSendRaw]
  split
  · exact List.prefix_rfl
  · dsimp only
    split_ifs <;> exact List.prefix_append ..

theorem sendsSucceed_rooms (f : IvyFifoBuffer) (rooms : List Nat) :
    SendsSucceed f (rooms.map .room) := by
  cases rooms with
  | nil => trivial
  | cons k rooms =>
    cases rooms with
    | nil => exact id
    | cons k' rooms => exact ⟨id, fun _ => id⟩

/-- No `send()` of the drain fails. -/
def Client.DrainSucceeds (client : Client) (answers : List SendResult) : Prop :=
  ∀ ifb, client.ifb = some ifb → SendsSucceed ifb answers

theorem handleCongestionWrite_spec {client : Client} (h : client.Wf) (hw : client.writable)
    {answers : List SendResult} (hok : client.DrainSucceeds answers) : ∃ client' flag,
      handleCongestionWrite client answers = some (client', flag) ∧ client'.Wf ∧
        client'.stream = client.stream := by
  rw [h.writable] at hw
  obtain ⟨ifb, hifb⟩ := Option.isSome_iff_exists.mp hw
  obtain ⟨hwf, hq⟩ := (h.fifo ifb hifb).sendSocket (hok ifb hifb)
  simp only [handleCongestionWrite, hifb]
  split
  · rename_i hret
    refine ⟨_, _, rfl, ⟨nofun, rfl⟩, ?_⟩
    have hempty : queue (ivyFifoSendSocket ifb answers).fifo = [] :=
      List.eq_nil_of_length_eq_zero (hwf.length_queue.trans hret)
    rw [hempty, List.append_nil] at hq
    simp only [Client.stream, Client.pending, hifb, hq, List.append_nil]
  · refine ⟨_, _, rfl, ⟨fun g hg => Option.some.inj hg ▸ hwf, ?_⟩, ?_⟩
    · rw [h.writable, hifb]
      rfl
    · simp only [Client.stream, Client.pending, hifb, List.append_assoc, hq]

theorem wakeUp_spec {client : Client} (h : client.Wf) {answers : List SendResult}
    (hok : client.DrainSucceeds answers) : ∃ client', wakeUp client answers = some client' ∧
      client'.Wf ∧ client'.stream = client.stream := by
  rw [wakeUp]
  split
  · rename_i hw
    obtain ⟨client', flag, heq, hwf, hs⟩ := handleCongestionWrite_spec h hw hok
    exact ⟨client', by rw [heq]; rfl, hwf, hs⟩
  · exact ⟨client, rfl, h, rfl⟩

theorem wakeUp_keeps {client client' : Client} {answers : List SendResult}
    (h : wakeUp client answers = some client') : client.kernel <+: client'.kernel := by
  rw [wakeUp] at h
  split at h
  · obtain ⟨⟨client', flag⟩, hwrite, rfl⟩ := Option.map_eq_some_iff.mp h
    unfold handleCongestionWrite at hwrite
    split at hwrite
    · cases hwrite
    · dsimp only at hwrite
      split at hwrite <;> cases hwrite <;> exact List.prefix_append ..
  · exact Option.some.inj h ▸ List.prefix_rfl

theorem Event.kernel_prefix {client client' : Client} {e : Event}
    (h : e.next client = some client') : client.kernel <+: client'.kernel := by
  cases e with
  | send text r => exact Option.some.inj h ▸ Socket.kernel_prefix client text r
  | sendWithId id body r1 r2 =>
    exact Option.some.inj h ▸ (Socket.kernel_prefix client id r1).trans
      (Socket.kernel_prefix _ body r2)
  | wakeUp rooms => exact wakeUp_keeps h

theorem Event.wakeUp_progress {client client' : Client} (h : client.Wf)
    (hpending : client.pending ≠ []) {k : Nat} {rooms : List Nat}
    (hnext : Event.next client (.wakeUp ((k + 1) :: rooms)) = some client') :
    client.kernel.length < client'.kernel.length := by
  obtain ⟨ifb, hifb⟩ : ∃ ifb, client.ifb = some ifb := by
    cases hifb : client.ifb with
    | none => exact absurd (by rw [Client.pending, hifb]) hpending
    | some ifb => exact ⟨ifb, rfl⟩
  have hqueue : queue ifb ≠ [] := by rwa [Client.pending, hifb] at hpending
  have hsent := (h.fifo ifb hifb).sent_ne_nil hqueue k (rooms.map .room)
  have hkernel : client'.kernel =
      client.kernel ++ (ivyFifoSendSocket ifb (.room (k + 1) :: rooms.map .room)).sent := by
    have hwritable : client.writable := by rw [h.writable, hifb]; rfl
    rw [Event.next, Socket.wakeUp, if_pos hwritable] at hnext
    obtain ⟨⟨client', flag⟩, hwrite, rfl⟩ := Option.map_eq_some_iff.mp hnext
    simp only [handleCongestionWrite, hifb, List.map_cons] at hwrite
    split at hwrite <;> cases hwrite <;> rfl
  rw [hkernel, List.length_append]
  exact Nat.lt_add_of_pos_right (List.length_pos_of_ne_nil hsent)

def Event.fates (client : Client) : Event → List (Str × Fate)
  | .send text r => [(text, fate client text r)]
  | .sendWithId id body r1 r2 =>
    [(id, fate client id r1),
      (body, fate (bufferizedSocketSendRaw client id r1).1 body r2)]
  | .wakeUp _ => []

def accepted (fates : List (Str × Fate)) : Str :=
  (fates.map fun p => p.2.part p.1).flatten

def fates : Client → List Event → List (Str × Fate)
  | _, [] => []
  | client, e :: es =>
    e.fates client ++ (e.next client).elim [] fun client' => fates client' es

def SendsInTurn (client : Client) : Event → Prop
  | .send text r => client.pending ≠ [] → (socketSendRaw client text r).1.kernel = client.kernel
  | .sendWithId id body r1 r2 =>
    let client1 := (bufferizedSocketSendRaw client id r1).1
    (client.pending ≠ [] → client1.kernel = client.kernel) ∧
      (client1.pending ≠ [] →
        (socketSendRawWithId client id body r1 r2).1.kernel = client1.kernel)
  | .wakeUp _ => True

theorem sendsInTurn (client : Client) (e : Event) : SendsInTurn client e := by
  cases e with
  | send text r => exact fun h => kernel_of_pending h ..
  | sendWithId id body r1 r2 =>
    exact ⟨fun h => kernel_of_pending h .., fun h => kernel_of_pending h ..⟩
  | wakeUp rooms => trivial

theorem Event.next_spec {client : Client} (h : client.Wf) (e : Event) :
    ∃ client', e.next client = some client' ∧ client'.Wf ∧
      client'.stream = client.stream ++ accepted (e.fates client) := by
  cases e with
  | send text r =>
    obtain ⟨hwf, hs⟩ := bufferizedSocketSendRaw_spec h text.2 r
    exact ⟨_, rfl, hwf, by simpa [accepted, Event.fates, socketSendRaw] using hs⟩
  | sendWithId id body r1 r2 =>
    obtain ⟨hwf1, hs1⟩ := bufferizedSocketSendRaw_spec h id.2 r1
    obtain ⟨hwf2, hs2⟩ := bufferizedSocketSendRaw_spec hwf1 body.2 r2
    refine ⟨_, rfl, hwf2, ?_⟩
    rw [hs1, List.append_assoc] at hs2
    simpa [accepted, Event.fates, socketSendRawWithId] using hs2
  | wakeUp rooms =>
    obtain ⟨client', heq, hwf, hs⟩ := wakeUp_spec h fun ifb _ => sendsSucceed_rooms ifb rooms
    exact ⟨client', heq, hwf, hs.trans (List.append_nil _).symm⟩

theorem run_stream {client : Client} (h : client.Wf) (es : List Event) :
    ∃ client', run Event.next client es = some client' ∧ client'.Wf ∧
      client'.stream = client.stream ++ accepted (fates client es) := by
  induction es generalizing client with
  | nil => exact ⟨client, rfl, h, (List.append_nil _).symm⟩
  | cons e es ih =>
    obtain ⟨client1, heq, hwf, hs⟩ := e.next_spec h
    obtain ⟨client2, hrun, hwf2, hs2⟩ := ih hwf
    refine ⟨client2, by rw [run, heq]; exact hrun, hwf2, ?_⟩
    rw [hs2, hs, List.append_assoc]
    simp [fates, heq, accepted]

/-- Along any run what the kernel has taken, followed by the FIFO, is the concatenation of the
accepted parts in call order, and no direct send overtakes queued bytes. -/
theorem sends_keep_order (es : List Event) :
    ∃ client, run Event.next Client.init es = some client ∧
      client.kernel ++ client.pending = accepted (fates Client.init es) ∧
      Along Event.next SendsInTurn Client.init es := by
  obtain ⟨client, hrun, -, hs⟩ := run_stream wf_init es
  exact ⟨client, hrun, hs, along_of_forall sendsInTurn _ es⟩

end IvyBus.Socket
