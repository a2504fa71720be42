import IvyBus.Duplicates

namespace IvyBus.Duplicates

open Ivy

variable {Code : Type}

/-- Two agents with two connections between them: `a` has opened `x`, and `b` has opened `y`. -/
structure Crossed (Code : Type) where
  orderA : ByteOrder
  orderB : ByteOrder
  hostA : Host
  hostB : Host
  ephemeralA : UInt16
  ephemeralB : UInt16
  listenA : UInt16
  listenB : UInt16
  a : Ivy Code
  b : Ivy Code
  x : Handle
  y : Handle
  ne : x ≠ y
  a_x : a.sockets x = (Link.opened hostB ephemeralA).socketInfo orderA
  a_y : a.sockets y = (Link.accepted hostB ephemeralB listenA).socketInfo orderA
  b_x : b.sockets x = (Link.accepted hostA ephemeralA listenB).socketInfo orderB
  b_y : b.sockets y = (Link.opened hostA ephemeralB).socketInfo orderB

/-- What an agent closes when the `StartRegexp` of the connection that it has opened, or of the
other one, comes last. -/
def resolve (s : Ivy Code) (opened accepted : Handle) (openedLast : Bool) : Handle :=
  if openedLast then s.duplicateTarget accepted opened else s.duplicateTarget opened accepted

/-- The ephemeral port of the connection that an agent has opened is above both ports that it sees
on the other one, or level with the larger one when its `StartRegexp` comes last. -/
def Outweighs (ephemeral : UInt16) (order : ByteOrder) (listen other : UInt16)
    (openedLast : Bool) : Prop :=
  if openedLast then max listen (order.sinPort other) ≤ ephemeral
  else max listen (order.sinPort other) < ephemeral

namespace Crossed

def targetA (w : Crossed Code) (openedLast : Bool) : Handle := resolve w.a w.x w.y openedLast

def targetB (w : Crossed Code) (openedLast : Bool) : Handle := resolve w.b w.y w.x openedLast

theorem resolve_iff {s : Ivy Code} {order : ByteOrder} {host host' : Host}
    {ephemeral listen other : UInt16} {c d : Handle}
    (hc : s.sockets c = (Link.opened host ephemeral).socketInfo order)
    (hd : s.sockets d = (Link.accepted host' other listen).socketInfo order) (last : Bool) :
    (Outweighs ephemeral order listen other last → resolve s c d last = c) ∧
      (¬ Outweighs ephemeral order listen other last → resolve s c d last = d) := by
  have hmaxc : s.maxPort c = ephemeral := by
    rw [Ivy.maxPort, hc]
    exact max_zero ephemeral
  have hmaxd : s.maxPort d = max listen (order.sinPort other) := by
    rw [Ivy.maxPort, hd]
    rfl
  cases last with
  | true =>
    have htarget : resolve s c d true =
        if max listen (order.sinPort other) > ephemeral then d else c := by
      rw [resolve, if_pos rfl, duplicateTarget, hmaxc, hmaxd]
    rw [Outweighs, if_pos rfl, htarget]
    exact ⟨fun hle => if_neg (UInt16.not_lt.mpr hle), fun hlt => if_pos (UInt16.not_le.mp hlt)⟩
  | false =>
    have htarget : resolve s c d false =
        if ephemeral > max listen (order.sinPort other) then c else d := by
      rw [resolve, if_neg Bool.false_ne_true, duplicateTarget, hmaxc, hmaxd]
    rw [Outweighs, if_neg Bool.false_ne_true, htarget]
    exact ⟨fun hlt => if_pos hlt, fun hle => if_neg hle⟩

end Crossed

/-- A connection that neither agent closes is left exactly when they agree. -/
theorem survivor_iff {x y tA tB : Handle} (hne : x ≠ y) (hA : tA = x ∨ tA = y)
    (hB : tB = x ∨ tB = y) : (∃ c, (c = x ∨ c = y) ∧ c ≠ tA ∧ c ≠ tB) ↔ tA = tB := by
  constructor
  · rintro ⟨c, rfl | rfl, hcA, hcB⟩
    · rw [hA.resolve_left hcA.symm, hB.resolve_left hcB.symm]
    · rw [hA.resolve_right hcA.symm, hB.resolve_right hcB.symm]
  · rintro rfl
    rcases hA with rfl | rfl
    · exact ⟨y, Or.inr rfl, hne.symm, hne.symm⟩
    · exact ⟨x, Or.inl rfl, hne, hne⟩

/-- Both agents close the same connection, and so one is left, exactly when one of them finds that
the connection it has opened outweighs the other one and the other agent does not. -/
theorem same_duplicate_closed_iff (w : Crossed Code) (lastA lastB : Bool) :
    (w.targetA lastA = w.targetB lastB ↔
      (Outweighs w.ephemeralA w.orderA w.listenA w.ephemeralB lastA ↔
        ¬ Outweighs w.ephemeralB w.orderB w.listenB w.ephemeralA lastB)) ∧
    ((∃ c, (c = w.x ∨ c = w.y) ∧ c ≠ w.targetA lastA ∧ c ≠ w.targetB lastB) ↔
      w.targetA lastA = w.targetB lastB) := by
  have hA := Crossed.resolve_iff w.a_x w.a_y lastA
  have hB := Crossed.resolve_iff w.b_y w.b_x lastB
  rw [Crossed.targetA, Crossed.targetB]
  by_cases ha : Outweighs w.ephemeralA w.orderA w.listenA w.ephemeralB lastA
  · have htA := hA.1 ha
    by_cases hb : Outweighs w.ephemeralB w.orderB w.listenB w.ephemeralA lastB
    · have htB := hB.1 hb
      refine ⟨?_, survivor_iff w.ne (Or.inl htA) (Or.inr htB)⟩
      rw [htA, htB]
      exact iff_of_false w.ne fun hiff => hiff.mp ha hb
    · have htB := hB.2 hb
      refine ⟨?_, survivor_iff w.ne (Or.inl htA) (Or.inl htB)⟩
      exact iff_of_true (htA.trans htB.symm) (iff_of_true ha hb)
  · have htA := hA.2 ha
    by_cases hb : Outweighs w.ephemeralB w.orderB w.listenB w.ephemeralA lastB
    · have htB := hB.1 hb
      refine ⟨?_, survivor_iff w.ne (Or.inr htA) (Or.inr htB)⟩
      exact iff_of_true (htA.trans htB.symm) (iff_of_false ha fun hnot => hnot hb)
    · have htB := hB.2 hb
      refine ⟨?_, survivor_iff w.ne (Or.inr htA) (Or.inl htB)⟩
      rw [htA, htB]
      exact iff_of_false w.ne.symm fun hiff => ha (hiff.mpr hb)

def crossed : Crossed Str where
  orderA := .little
  orderB := .little
  hostA := ⟨1, Nat.one_ne_zero⟩
  hostB := ⟨2, by decide⟩
  ephemeralA := 50000
  ephemeralB := 50001
  listenA := 2010
  listenB := 2011
  a := { (default : Ivy Str) with sockets := fun c =>
    if c = 0 then ⟨0, 0, 50000⟩ else ⟨2, 20931, 2010⟩ }
  b := { (default : Ivy Str) with sockets := fun c =>
    if c = 0 then ⟨1, 20675, 2011⟩ else ⟨0, 0, 50001⟩ }
  x := 0
  y := 1
  ne := by decide
  a_x := rfl
  a_y := rfl
  b_x := rfl
  b_y := rfl

/-- Each agent closes the connection that it has opened, and none is left. -/
theorem crossed_closes_both : crossed.targetA false = crossed.x ∧
    crossed.targetB false = crossed.y := by
  decide

end IvyBus.Duplicates
