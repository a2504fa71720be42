import Mathlib.Algebra.Group.Int.Defs
import Mathlib.Data.List.Basic
import IvyBus.Lib.Run
import IvyBus.Param

namespace IvyBus.Ping

open Lib

structure PingTimestamp where
  ts : Timeval
  id : Int32
  deriving DecidableEq

def timerisset (t : Timeval) : Bool := t.tv_sec ≠ 0 || t.tv_usec ≠ 0

def timersub (a b : Timeval) : Timeval :=
  if a.tv_usec - b.tv_usec < 0 then
    ⟨a.tv_sec - b.tv_sec - 1, a.tv_usec - b.tv_usec + 1000000⟩
  else ⟨a.tv_sec - b.tv_sec, a.tv_usec - b.tv_usec⟩

/-- `IvySendPing` with a pong callback; the result is the id of the Ping line. The increment of
the largest `int` is not defined. -/
def ivySendPing (p : PingTimestamp) (now : Timeval) : Option (PingTimestamp × Int32) :=
  if p.id = Int32.maxValue then none else some (⟨now, p.id + 1⟩, p.id + 1)

def roundTripOrTimout (diff : Timeval) : Int32 :=
  (min diff.tv_sec 2000 * 1000000 + diff.tv_usec).toInt32

/-- The branch of `Receive` for a Pong line; the result is what the callback is told. -/
def receivePong (p : PingTimestamp) (now : Timeval) (id : Int32) : PingTimestamp × Option Int32 :=
  if timerisset p.ts then
    let roundTripOrTimout := roundTripOrTimout (timersub now p.ts)
    ({ p with ts := ⟨0, 0⟩ },
      some (if id ≠ p.id then roundTripOrTimout * -1 else roundTripOrTimout))
  else (p, none)

/-- What happens between an application and its peer. The peer may leave some Ping lines without
an answer before it answers one. -/
inductive Event
  | ivySendPing (now : Timeval)
  | receivePong (now : Timeval) (skipped : Nat)
  deriving DecidableEq

/-- `pending` are the ids of the Ping lines that are not answered, the oldest one first, with the
times when they were sent; `last` is the last event, `clock` the last time that was read. -/
structure State where
  pingTimestamp : PingTimestamp
  pending : List (Int32 × Timeval)
  last : Option Event
  clock : Timeval

/-- `SendService` clears the record. -/
def init : State := ⟨⟨⟨0, 0⟩, 0⟩, [], none, ⟨0, 0⟩⟩

def next (s : State) (e : Event) : Option State :=
  match e with
  | .ivySendPing now =>
    (ivySendPing s.pingTimestamp now).map fun (p, id) =>
      ⟨p, s.pending ++ [(id, now)], some e, now⟩
  | .receivePong now skipped =>
    match s.pending.drop skipped with
    | [] => none
    | (id, _) :: rest => some ⟨(receivePong s.pingTimestamp now id).1, rest, some e, now⟩

structure Reads (now : Timeval) : Prop where
  sec_nonneg : 0 ≤ now.tv_sec.toInt
  usec_nonneg : 0 ≤ now.tv_usec.toInt
  usec_lt : now.tv_usec.toInt < 1000000

instance (now : Timeval) : Decidable (Reads now) :=
  decidable_of_iff
    (0 ≤ now.tv_sec.toInt ∧ 0 ≤ now.tv_usec.toInt ∧ now.tv_usec.toInt < 1000000)
    ⟨fun h => ⟨h.1, h.2.1, h.2.2⟩, fun h => ⟨h.sec_nonneg, h.usec_nonneg, h.usec_lt⟩⟩

/-- The clock does not go back, and a Pong line answers a Ping line of the last 2000 seconds. -/
def Timely (s : State) (e : Event) : Prop :=
  match e with
  | .ivySendPing now => Reads now ∧ s.clock.micros ≤ now.micros
  | .receivePong now skipped => Reads now ∧ s.clock.micros ≤ now.micros ∧
    match s.pending.drop skipped with
    | [] => False
    | (_, sent) :: _ => now.micros - sent.micros ≤ 2000 * 1000000

/-- An answer of the ping sent last is reported with its round trip, an answer of an older one at
most as a timeout. -/
def Accounted (s : State) (e : Event) : Prop :=
  match e with
  | .ivySendPing _ => (next s e).isSome
  | .receivePong now skipped =>
    match s.pending.drop skipped with
    | [] => False
    | (id, sent) :: rest =>
      let told := (receivePong s.pingTimestamp now id).2.map Int32.toInt
      if rest = [] then told = some (now.micros - sent.micros) else ∀ r ∈ told, r ≤ 0

/-- An answer of the ping sent last is the first thing that happens after it, and that ping was
not sent at the origin of the clock. -/
def Prompt (s : State) (e : Event) : Prop :=
  match e with
  | .ivySendPing _ => s.pingTimestamp.id ≠ Int32.maxValue
  | .receivePong _ skipped => (s.pending.drop skipped).length = 1 →
    match s.last with
    | some (.ivySendPing sent) => timerisset sent
    | _ => False

instance (s : State) (e : Event) : Decidable (Timely s e) :=
  match e with
  | .ivySendPing _ => instDecidableAnd
  | .receivePong now skipped =>
    have : Decidable (match s.pending.drop skipped with
        | [] => False
        | (_, sent) :: _ => now.micros - sent.micros ≤ 2000 * 1000000) := by
      split <;> infer_instance
    instDecidableAnd

instance (s : State) (e : Event) : Decidable (Accounted s e) :=
  match e with
  | .ivySendPing _ => instDecidableEqBool ..
  | .receivePong .. => by unfold Accounted; dsimp only; split <;> infer_instance

section Clock

theorem toInt_eq_bmod {x y : Int} (h : x = y.bmod (2 ^ 64)) (hlow : -2 ^ 63 ≤ y)
    (hhigh : y < 2 ^ 63) : x = y := by
  rw [h]
  exact Int.bmod_eq_of_le (by omega) (by omega)

theorem toInt_sub {a b : Int64} (ha : 0 ≤ a.toInt) (hb : 0 ≤ b.toInt) :
    (a - b).toInt = a.toInt - b.toInt := by
  have hlt := a.toInt_lt
  have hlt' := b.toInt_lt
  exact toInt_eq_bmod (Int64.toInt_sub a b) (by omega) (by omega)

theorem timersub_spec {now ts : Timeval} (hnow : Reads now) (hts : Reads ts)
    (hle : ts.micros ≤ now.micros) :
    Reads (timersub now ts) ∧ (timersub now ts).micros = now.micros - ts.micros := by
  have hsec := toInt_sub hnow.sec_nonneg hts.sec_nonneg
  have husec := toInt_sub hnow.usec_nonneg hts.usec_nonneg
  obtain ⟨hnow0, hnow1, hnow2⟩ := hnow
  obtain ⟨hts0, hts1, hts2⟩ := hts
  have hlt := now.tv_sec.toInt_lt
  unfold Timeval.micros at hle
  have hzero : (0 : Int64).toInt = 0 := rfl
  unfold timersub
  split
  · rename_i hborrow
    rw [Int64.lt_iff_toInt_lt, husec, hzero] at hborrow
    have hsec' : (now.tv_sec - ts.tv_sec - 1).toInt = now.tv_sec.toInt - ts.tv_sec.toInt - 1 := by
      have h := Int64.toInt_sub (now.tv_sec - ts.tv_sec) 1
      rw [hsec] at h
      exact toInt_eq_bmod h (by omega) (by omega)
    have husec' : (now.tv_usec - ts.tv_usec + 1000000).toInt =
        now.tv_usec.toInt - ts.tv_usec.toInt + 1000000 := by
      have h := Int64.toInt_add (now.tv_usec - ts.tv_usec) 1000000
      rw [husec] at h
      exact toInt_eq_bmod h (by omega) (by omega)
    refine ⟨⟨?_, ?_, ?_⟩, ?_⟩
    · rw [hsec']
      omega
    · rw [husec']
      omega
    · rw [husec']
      omega
    · rw [Timeval.micros, Timeval.micros, Timeval.micros, hsec', husec']
      omega
  · rename_i hborrow
    rw [Int64.lt_iff_toInt_lt, husec, hzero] at hborrow
    refine ⟨⟨?_, ?_, ?_⟩, ?_⟩
    · rw [hsec]
      omega
    · rw [husec]
      omega
    · rw [husec]
      omega
    · rw [Timeval.micros, Timeval.micros, Timeval.micros, hsec, husec]
      omega

theorem toInt_roundTripOrTimout {diff : Timeval} (h : Reads diff) :
    (roundTripOrTimout diff).toInt = min diff.tv_sec.toInt 2000 * 1000000 + diff.tv_usec.toInt := by
  obtain ⟨hsec, husec, hlt⟩ := h
  have htwo : (2000 : Int64).toInt = 2000 := rfl
  have hmin : (min diff.tv_sec 2000).toInt = min diff.tv_sec.toInt 2000 := by
    change (if diff.tv_sec ≤ 2000 then diff.tv_sec else 2000).toInt = _
    split
    · rename_i hle
      rw [Int64.le_iff_toInt_le, htwo] at hle
      rw [Int.min_eq_left hle]
    · rename_i hle
      rw [Int64.le_iff_toInt_le, htwo] at hle
      rw [htwo, Int.min_eq_right (by omega)]
  have hmul : (min diff.tv_sec 2000 * 1000000).toInt = min diff.tv_sec.toInt 2000 * 1000000 := by
    have h := Int64.toInt_mul (min diff.tv_sec 2000) 1000000
    rw [hmin] at h
    exact toInt_eq_bmod h (by omega) (by omega)
  have hadd := Int64.toInt_add (min diff.tv_sec 2000 * 1000000) diff.tv_usec
  rw [hmul] at hadd
  rw [roundTripOrTimout, Int64.toInt_toInt32, toInt_eq_bmod hadd (by omega) (by omega)]
  exact Int.bmod_eq_of_le (by omega) (by omega)

theorem roundTripOrTimout_eq {diff : Timeval} (h : Reads diff)
    (hle : diff.micros ≤ 2000 * 1000000) : (roundTripOrTimout diff).toInt = diff.micros := by
  have hsec := h.sec_nonneg
  have husec := h.usec_nonneg
  have hlt := h.usec_lt
  rw [toInt_roundTripOrTimout h]
  unfold Timeval.micros at *
  omega

theorem timeout_nonpos {diff : Timeval} (h : Reads diff) :
    (roundTripOrTimout diff * -1).toInt ≤ 0 := by
  have hval := toInt_roundTripOrTimout h
  obtain ⟨hsec, husec, hlt⟩ := h
  rw [Int32.toInt_mul]
  change Int.bmod (_ * (-1 : Int)) _ ≤ 0
  rw [Int.bmod_eq_of_le (by omega) (by omega)]
  omega

end Clock

/-- The ids grow from each Ping line to the next one, and the record has the last one. -/
structure Ordered (s : State) : Prop where
  id_nonneg : 0 ≤ s.pingTimestamp.id.toInt
  grows : s.pending.Pairwise fun p q => p.1.toInt < q.1.toInt
  newest : ∀ front p, s.pending = front ++ [p] → p.1 = s.pingTimestamp.id

structure Stamped (s : State) : Prop where
  clock_reads : Reads s.clock
  sent : ∀ now, s.last = some (.ivySendPing now) → s.pingTimestamp.ts = now ∧
    ∀ front p, s.pending = front ++ [p] → p.2 = now
  cleared : (∀ now, s.last ≠ some (.ivySendPing now)) → s.pingTimestamp.ts = ⟨0, 0⟩
  past : Reads s.pingTimestamp.ts ∧ s.pingTimestamp.ts.micros ≤ s.clock.micros

def Inv (s : State) : Prop := Ordered s ∧ Stamped s

section Run

variable {s s' : State} {now : Timeval} {skipped : Nat} {p : Int32 × Timeval}
  {rest : List (Int32 × Timeval)}

theorem reads_zero : Reads ⟨0, 0⟩ := by decide

theorem micros_zero : Timeval.micros ⟨0, 0⟩ = 0 := by decide

theorem Reads.micros_nonneg (h : Reads now) : 0 ≤ now.micros := by
  have hsec := h.sec_nonneg
  have husec := h.usec_nonneg
  unfold Timeval.micros
  omega

theorem inv_init : Inv init := by
  refine ⟨⟨by decide, List.Pairwise.nil, ?_⟩, ⟨reads_zero, nofun, fun _ => rfl, reads_zero, ?_⟩⟩
  · intro front p h
    exact absurd h (by simp [init])
  · exact Int.le_refl _

theorem eq_zero_of_not_timerisset {t : Timeval} (h : ¬ timerisset t) : t = ⟨0, 0⟩ := by
  obtain ⟨sec, usec⟩ := t
  simpa [timerisset] using h

theorem receivePong_fst (p : PingTimestamp) (now : Timeval) (id : Int32) :
    (receivePong p now id).1 = ⟨⟨0, 0⟩, p.id⟩ := by
  unfold receivePong
  split
  · rfl
  · rename_i hclear
    rw [← eq_zero_of_not_timerisset hclear]

theorem toInt_succ {id : Int32} (h0 : 0 ≤ id.toInt) (h : id ≠ Int32.maxValue) :
    (id + 1).toInt = id.toInt + 1 := by
  have hlt := id.toInt_lt
  have hne : id.toInt ≠ 2 ^ 31 - 1 := fun heq => h (Int32.toInt_inj.mp heq)
  rw [Int32.toInt_add]
  exact Int.bmod_eq_of_le (by change _ ≤ _ + (1 : Int); omega) (by change _ + (1 : Int) < _; omega)

theorem Ordered.le (h : Ordered s) (hmem : p ∈ s.pending) :
    p.1.toInt ≤ s.pingTimestamp.id.toInt := by
  obtain ⟨front, last, heq⟩ := List.eq_nil_or_concat s.pending |>.resolve_left
    (List.ne_nil_of_mem hmem)
  rw [List.concat_eq_append] at heq
  have hgrows := h.grows
  have hlast := h.newest front last heq
  rw [heq] at hmem hgrows
  rcases List.mem_append.mp hmem with hin | hin
  · have hlt := (List.pairwise_append.mp hgrows).2.2 p hin last List.mem_cons_self
    rw [hlast] at hlt
    exact Int.le_of_lt hlt
  · have hp := List.mem_singleton.mp hin
    exact Int.le_of_eq (congrArg Int32.toInt (hp ▸ hlast))

theorem pending_eq_append {unskipped : List (Int32 × Timeval)}
    (h : s.pending.drop skipped = unskipped) : s.pending = s.pending.take skipped ++ unskipped := by
  rw [← h]
  exact (List.take_append_drop ..).symm

theorem Ordered.newest_of_drop (h : Ordered s) (front : List (Int32 × Timeval))
    (hpending : s.pending.drop skipped = front ++ [p]) : p.1 = s.pingTimestamp.id := by
  refine h.newest (s.pending.take skipped ++ front) p ?_
  rw [List.append_assoc]
  exact pending_eq_append hpending

theorem Inv.ivySendPing (h : Inv s) (hread : Reads now)
    (hid : s.pingTimestamp.id ≠ Int32.maxValue) :
    ∃ s', next s (.ivySendPing now) = some s' ∧ Inv s' := by
  obtain ⟨hordered, -⟩ := h
  have hsucc := toInt_succ hordered.id_nonneg hid
  have hlast : ∀ front p, s.pending ++ [(s.pingTimestamp.id + 1, now)] = front ++ [p] →
      p = (s.pingTimestamp.id + 1, now) := by
    intro front p heq
    exact (List.append_inj' heq rfl).2 |> List.singleton_inj.mp |>.symm
  refine ⟨⟨⟨now, s.pingTimestamp.id + 1⟩, s.pending ++ [(s.pingTimestamp.id + 1, now)],
    some (.ivySendPing now), now⟩, ?_, ⟨?_, ?_, ?_⟩, ⟨hread, ?_, ?_, hread, Int.le_refl _⟩⟩
  · rw [next, Ping.ivySendPing, if_neg hid]
    rfl
  · rw [hsucc]
    have := hordered.id_nonneg
    omega
  · refine List.pairwise_append.mpr ⟨hordered.grows, List.pairwise_singleton .., ?_⟩
    intro p hmem q hq
    rw [List.mem_singleton.mp hq, hsucc]
    exact Int.lt_add_one_of_le (hordered.le hmem)
  · intro front p heq
    rw [hlast front p heq]
  · intro sent hsent
    obtain rfl : now = sent := by simpa using hsent
    refine ⟨rfl, fun front p heq => ?_⟩
    rw [hlast front p heq]
  · intro hno
    exact absurd rfl (hno now)

theorem Inv.receivePong (h : Inv s) (hread : Reads now)
    (hpending : s.pending.drop skipped = p :: rest) :
    ∃ s', next s (.receivePong now skipped) = some s' ∧ Inv s' := by
  obtain ⟨hordered, -⟩ := h
  refine ⟨⟨⟨⟨0, 0⟩, s.pingTimestamp.id⟩, rest, some (.receivePong now skipped), now⟩, ?_,
    ⟨hordered.id_nonneg, ?_, ?_⟩, ⟨hread, nofun, fun _ => rfl, reads_zero, ?_⟩⟩
  · rw [next, hpending]
    dsimp only
    rw [receivePong_fst]
  · have hgrows := hordered.grows
    rw [pending_eq_append hpending] at hgrows
    exact (List.pairwise_append.mp hgrows).2.1.tail
  · rintro front q rfl
    exact hordered.newest_of_drop (p :: front) hpending
  · rw [micros_zero]
    exact hread.micros_nonneg

theorem Ordered.newest_iff (h : Ordered s) (hpending : s.pending.drop skipped = p :: rest) :
    rest = [] ↔ p.1 = s.pingTimestamp.id := by
  refine ⟨fun heq => h.newest_of_drop [] (heq ▸ hpending), fun hid => ?_⟩
  rcases List.eq_nil_or_concat rest with heq | ⟨front, q, heq⟩
  · exact heq
  · rw [List.concat_eq_append] at heq
    subst heq
    have hlast := h.newest_of_drop (p :: front) hpending
    have hgrows := h.grows
    rw [pending_eq_append hpending] at hgrows
    have hlt := (List.pairwise_cons.mp (List.pairwise_append.mp hgrows).2.1).1 q
      (List.mem_append_right _ List.mem_cons_self)
    rw [hid, hlast] at hlt
    exact absurd hlt (Int.lt_irrefl _)

theorem Stamped.prompt_iff (h : Stamped s) (hpending : (s.pending.drop skipped).length = 1) :
    Prompt s (.receivePong now skipped) ↔ timerisset s.pingTimestamp.ts := by
  rw [Prompt]
  refine (forall_prop_of_true hpending).trans ?_
  split
  · rename_i sent hsent
    rw [(h.sent sent hsent).1]
  · rename_i hno
    rw [h.cleared hno]
    exact iff_of_false id (by decide)

theorem Inv.told_newest {id : Int32} {sent : Timeval} (h : Inv s) (hread : Reads now)
    (hle : s.clock.micros ≤ now.micros) (hpending : s.pending.drop skipped = [(id, sent)])
    (htime : now.micros - sent.micros ≤ 2000 * 1000000) :
    (Ping.receivePong s.pingTimestamp now id).2.map Int32.toInt =
      some (now.micros - sent.micros) ↔ timerisset s.pingTimestamp.ts := by
  obtain ⟨hordered, hstamped⟩ := h
  have hid := (hordered.newest_iff hpending).mp rfl
  by_cases hset : timerisset s.pingTimestamp.ts
  · obtain ⟨last, hlast⟩ : ∃ last, s.last = some (.ivySendPing last) := by
      by_contra hno
      rw [hstamped.cleared fun last hlast => hno ⟨last, hlast⟩] at hset
      cases hset
    obtain ⟨hts, hsent⟩ := hstamped.sent last hlast
    have htime' : sent = s.pingTimestamp.ts :=
      (hsent _ _ (pending_eq_append hpending)).trans hts.symm
    obtain ⟨hdiff, hmicros⟩ := timersub_spec hread hstamped.past.1
      (Int.le_trans hstamped.past.2 hle)
    rw [htime'] at htime ⊢
    refine iff_of_true ?_ hset
    simp only [Ping.receivePong, if_pos hset, if_neg (not_not.mpr hid), Option.map_some]
    rw [roundTripOrTimout_eq hdiff (by rw [hmicros]; exact htime), hmicros]
  · refine iff_of_false ?_ hset
    rw [Ping.receivePong, if_neg hset]
    exact nofun

theorem Inv.told_older (h : Inv s) (hread : Reads now) (hle : s.clock.micros ≤ now.micros)
    (hpending : s.pending.drop skipped = p :: rest) (hrest : rest ≠ []) :
    ∀ r ∈ (Ping.receivePong s.pingTimestamp now p.1).2.map Int32.toInt, r ≤ 0 := by
  obtain ⟨hordered, hstamped⟩ := h
  have hid : p.1 ≠ s.pingTimestamp.id := fun heq =>
    hrest ((hordered.newest_iff hpending).mpr heq)
  by_cases hset : timerisset s.pingTimestamp.ts
  · rw [Ping.receivePong, if_pos hset]
    intro r hr
    simp only [if_pos hid, Option.map_some, Option.mem_some_iff] at hr
    rw [← hr]
    exact timeout_nonpos (timersub_spec hread hstamped.past.1
      (Int.le_trans hstamped.past.2 hle)).1
  · rw [Ping.receivePong, if_neg hset]
    exact nofun

theorem Inv.accounted_iff (h : Inv s) (e : Event) (ht : Timely s e) :
    Accounted s e ↔ Prompt s e := by
  cases e with
  | ivySendPing now =>
    rw [Accounted, Prompt, next, Ping.ivySendPing]
    split
    · rename_i hmax
      simp [hmax]
    · rename_i hmax
      simp [hmax]
  | receivePong now skipped =>
    rw [Timely] at ht
    rw [Accounted]
    obtain ⟨hread, hle, htime⟩ := ht
    rcases hpending : s.pending.drop skipped with _ | ⟨⟨id, sent⟩, rest⟩
    · rw [hpending] at htime
      exact htime.elim
    · rw [hpending] at htime
      by_cases hrest : rest = []
      · subst hrest
        rw [h.2.prompt_iff (congrArg List.length hpending)]
        dsimp only
        rw [if_pos rfl]
        exact h.told_newest hread hle hpending htime
      · dsimp only
        rw [if_neg hrest]
        refine iff_of_true (h.told_older hread hle hpending hrest) fun hlength => ?_
        rw [hpending, List.length_cons, Nat.add_eq_right, List.length_eq_zero_iff] at hlength
        exact absurd hlength hrest

theorem Inv.next (h : Inv s) (e : Event) (ht : Timely s e) (hs' : next s e = some s') : Inv s' := by
  cases e with
  | ivySendPing now =>
    by_cases hid : s.pingTimestamp.id = Int32.maxValue
    · rw [Ping.next, Ping.ivySendPing, if_pos hid] at hs'
      cases hs'
    · obtain ⟨t, ht', hinv⟩ := h.ivySendPing ht.1 hid
      rwa [← Option.some.inj (ht'.symm.trans hs')]
  | receivePong now skipped =>
    rw [Timely] at ht
    obtain ⟨hread, -, htime⟩ := ht
    rcases hpending : s.pending.drop skipped with _ | ⟨p, rest⟩
    · rw [hpending] at htime
      exact htime.elim
    · obtain ⟨t, ht', hinv⟩ := h.receivePong hread hpending
      rwa [← Option.some.inj (ht'.symm.trans hs')]

end Run

/-- Along every run the answers are accounted for exactly when an answer of the ping sent last is
the first thing after it. -/
theorem pings_accounted_iff (es : List Event) (h : Along next Timely init es) :
    Along next Accounted init es ↔ Along next Prompt init es :=
  along_congr (fun _ e hs ht => hs.accounted_iff e ht) (fun _ e _ hs ht hs' => hs.next e ht hs')
    inv_init h

def overlapping : List Event :=
  [.ivySendPing ⟨10, 0⟩, .ivySendPing ⟨11, 0⟩, .receivePong ⟨12, 0⟩ 0, .receivePong ⟨13, 0⟩ 0]

theorem pings_accounted_overlapping : Along next Timely init overlapping ∧
    (Along next Accounted init overlapping ↔ Along next Prompt init overlapping) := by
  have htimely : Along next Timely init overlapping := by decide
  exact ⟨htimely, pings_accounted_iff overlapping htimely⟩

theorem overlapping_not_accounted :
    Along next Timely init overlapping ∧ ¬ Along next Accounted init overlapping := by
  decide

end IvyBus.Ping
