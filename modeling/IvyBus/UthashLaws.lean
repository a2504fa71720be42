import IvyBus.Uthash

namespace IvyBus.Uthash

open Lib

def bucketOf (hh : Handles) (numBkts : UInt32) (a : Elem) : Nat :=
  (hashToBkt (hh.hashv a) numBkts).toNat

structure Chain (hh : Handles) (bkt : UtHashBucket) (c : List Elem) : Prop where
  head : bkt.hhHead = c.head?
  linked : Linked hh.hhNext hh.hhPrev none none c
  count : bkt.count = UInt32.ofNat c.length

/-- The buckets hold the elements with the property `S`, each in the bucket of its hash value. -/
structure Buckets (hh : Handles) (buckets : List UtHashBucket) (numBkts : UInt32)
    (S : Elem → Prop) : Prop where
  length : buckets.length = numBkts.toNat
  chain : ∀ i bkt, buckets[i]? = some bkt → ∃ c, Chain hh bkt c ∧ c.Nodup ∧
    ∀ a, a ∈ c ↔ S a ∧ bucketOf hh numBkts a = i

structure SameOrder (hh hh' : Handles) : Prop where
  prev : hh'.prev = hh.prev
  next : hh'.next = hh.next
  key : hh'.key = hh.key
  keylen : hh'.keylen = hh.keylen
  hashv : hh'.hashv = hh.hashv

/-- Only the elements with the property `T` are in other places of the chains. -/
structure Kept (hh hh' : Handles) (T : Elem → Prop) : Prop extends SameOrder hh hh' where
  hhNext : ∀ x, ¬ T x → hh'.hhNext x = hh.hhNext x
  hhPrev : ∀ x, ¬ T x → hh'.hhPrev x = hh.hhPrev x

variable {hh hh' hh'' : Handles} {buckets : List UtHashBucket} {bkt : UtHashBucket}
  {numBkts : UInt32} {S T : Elem → Prop} {a : Elem} {c : List Elem} {i : Nat}

theorem Kept.refl (hh : Handles) (T : Elem → Prop) : Kept hh hh T :=
  ⟨⟨rfl, rfl, rfl, rfl, rfl⟩, fun _ _ => rfl, fun _ _ => rfl⟩

theorem SameOrder.trans (h : SameOrder hh hh') (h' : SameOrder hh' hh'') : SameOrder hh hh'' :=
  ⟨h'.prev.trans h.prev, h'.next.trans h.next, h'.key.trans h.key, h'.keylen.trans h.keylen,
    h'.hashv.trans h.hashv⟩

theorem Kept.trans (h : Kept hh hh' S) (h' : Kept hh' hh'' T) (hsub : ∀ x, S x → T x) :
    Kept hh hh'' T :=
  ⟨h.toSameOrder.trans h'.toSameOrder,
    fun x hx => (h'.hhNext x hx).trans (h.hhNext x fun hs => hx (hsub x hs)),
    fun x hx => (h'.hhPrev x hx).trans (h.hhPrev x fun hs => hx (hsub x hs))⟩

theorem bucketOf_congr (h : hh'.hashv a = hh.hashv a) :
    bucketOf hh' numBkts a = bucketOf hh numBkts a := by
  rw [bucketOf, h, bucketOf]

theorem bucketOf_lt (hpos : 0 < numBkts.toNat) (hh : Handles) (a : Elem) :
    bucketOf hh numBkts a < numBkts.toNat := by
  have hsub : (numBkts - 1).toNat = numBkts.toNat - 1 := by
    have hone : (1 : UInt32) ≤ numBkts := UInt32.le_iff_toNat_le.mpr hpos
    rw [UInt32.toNat_sub_of_le _ _ hone]
    rfl
  have hle : bucketOf hh numBkts a ≤ (numBkts - 1).toNat := by
    rw [bucketOf, hashToBkt, UInt32.toNat_and]
    exact Nat.and_le_right
  omega

theorem Chain.congr (h : Chain hh bkt c) (hnext : ∀ x ∈ c, hh'.hhNext x = hh.hhNext x)
    (hprev : ∀ x ∈ c, hh'.hhPrev x = hh.hhPrev x) : Chain hh' bkt c :=
  ⟨h.head, h.linked.congr hnext hprev, h.count⟩

theorem hashDelInBkt_fst (hh : Handles) (bkt : UtHashBucket) (a : Elem) :
    (hashDelInBkt hh bkt a).1 = { hh with
      hhNext := setAt hh.hhNext (hh.hhPrev a) (hh.hhNext a)
      hhPrev := setAt hh.hhPrev (hh.hhNext a) (hh.hhPrev a) } := by
  simp only [hashDelInBkt, setAt_self]

theorem unlink_eq (hh : Handles) (a : Elem) : hh.unlink a = { hh with
    next := setAt hh.next (hh.prev a) (hh.next a)
    prev := setAt hh.prev (hh.next a) (hh.prev a) } := by
  simp only [Handles.unlink, setAt_self]

namespace Buckets

theorem congr (h : Buckets hh buckets numBkts S)
    (hnext : ∀ x, S x → hh'.hhNext x = hh.hhNext x)
    (hprev : ∀ x, S x → hh'.hhPrev x = hh.hhPrev x)
    (hhashv : ∀ x, S x → hh'.hashv x = hh.hashv x) : Buckets hh' buckets numBkts S := by
  refine ⟨h.length, fun i bkt hbkt => ?_⟩
  obtain ⟨c, hc, hnodup, hmem⟩ := h.chain i bkt hbkt
  refine ⟨c, hc.congr (fun x hx => hnext x ((hmem x).mp hx).1)
    fun x hx => hprev x ((hmem x).mp hx).1, hnodup, fun a => (hmem a).trans ?_⟩
  exact and_congr_right fun ha => by rw [bucketOf_congr (hhashv a ha)]

theorem congr_mem (h : Buckets hh buckets numBkts S) (hiff : ∀ x, S x ↔ T x) :
    Buckets hh buckets numBkts T := by
  refine ⟨h.length, fun i bkt hbkt => ?_⟩
  obtain ⟨c, hc, hnodup, hmem⟩ := h.chain i bkt hbkt
  exact ⟨c, hc, hnodup, fun a => by rw [hmem, hiff]⟩

theorem empty (hh : Handles) (numBkts : UInt32) :
    Buckets hh (emptyBuckets numBkts) numBkts fun _ => False := by
  refine ⟨List.length_replicate, fun i bkt hbkt => ⟨[], ?_, List.nodup_nil, fun a => ?_⟩⟩
  · obtain rfl := List.eq_of_mem_replicate (List.mem_of_getElem? hbkt)
    exact ⟨rfl, trivial, rfl⟩
  · simp

theorem getElem? (h : Buckets hh buckets numBkts S) (hpos : 0 < numBkts.toNat) (a : Elem) :
    ∃ bkt, buckets[bucketOf hh numBkts a]? = some bkt :=
  ⟨_, List.getElem?_eq_getElem (h.length ▸ bucketOf_lt hpos hh a)⟩

theorem other (h : Buckets hh buckets numBkts S) {j : Nat} (hj : j ≠ i)
    (hbkt : buckets[j]? = some bkt)
    (hnext : ∀ x, bucketOf hh numBkts x ≠ i → hh'.hhNext x = hh.hhNext x)
    (hprev : ∀ x, bucketOf hh numBkts x ≠ i → hh'.hhPrev x = hh.hhPrev x)
    (hhashv : hh'.hashv = hh.hashv)
    (hT : ∀ x, bucketOf hh numBkts x ≠ i → (T x ↔ S x)) :
    ∃ c, Chain hh' bkt c ∧ c.Nodup ∧ ∀ a, a ∈ c ↔ T a ∧ bucketOf hh' numBkts a = j := by
  obtain ⟨c, hc, hnodup, hmem⟩ := h.chain j bkt hbkt
  have hne : ∀ x, bucketOf hh numBkts x = j → bucketOf hh numBkts x ≠ i := fun x hx => hx ▸ hj
  refine ⟨c, hc.congr (fun x hx => hnext x (hne x ((hmem x).mp hx).2))
    fun x hx => hprev x (hne x ((hmem x).mp hx).2), hnodup, fun a => (hmem a).trans ?_⟩
  rw [bucketOf_congr (congrFun hhashv a)]
  exact and_congr_left fun ha => (hT a (hne a ha)).symm

theorem link (h : Buckets hh buckets numBkts S) (ha : ¬ S a)
    (hbkt : buckets[bucketOf hh numBkts a]? = some bkt) (mult : UInt32) :
    Buckets (hh.link bkt.hhHead a)
      (buckets.set (bucketOf hh numBkts a) ⟨some a, bkt.count + 1, mult⟩) numBkts
      fun x => S x ∨ x = a := by
  obtain ⟨c, hc, hnodup, hmem⟩ := h.chain _ bkt hbkt
  have hnew : a ∉ c := fun hin => ha ((hmem a).mp hin).1
  refine ⟨by rw [List.length_set, h.length], fun j b hb => ?_⟩
  by_cases hj : j = bucketOf hh numBkts a
  · subst hj
    rw [List.getElem?_set_self (List.getElem?_eq_some_iff.mp hbkt).1] at hb
    obtain rfl := Option.some.inj hb
    refine ⟨a :: c, ⟨rfl, ?_, ?_⟩, List.nodup_cons.mpr ⟨hnew, hnodup⟩, fun x => ?_⟩
    · change Linked (Function.update hh.hhNext a bkt.hhHead)
        (setAt (Function.update hh.hhPrev a none) bkt.hhHead (some a)) none none (a :: c)
      rw [hc.head]
      exact hc.linked.push hnodup hnew
    · rw [hc.count, List.length_cons, UInt32.ofNat_add]
      rfl
    · rw [List.mem_cons, hmem]
      change x = a ∨ _ ↔ (S x ∨ x = a) ∧ bucketOf hh numBkts x = _
      constructor
      · rintro (rfl | ⟨hx, hi⟩)
        · exact ⟨Or.inr rfl, rfl⟩
        · exact ⟨Or.inl hx, hi⟩
      · rintro ⟨hx | rfl, hi⟩
        · exact Or.inr ⟨hx, hi⟩
        · exact Or.inl rfl
  · rw [List.getElem?_set_ne (Ne.symm hj)] at hb
    have hhead : ∀ x, bucketOf hh numBkts x ≠ bucketOf hh numBkts a → bkt.hhHead ≠ some x := by
      intro x hx heq
      rw [hc.head] at heq
      exact hx ((hmem x).mp (List.mem_of_head? heq)).2
    have hne : ∀ x, bucketOf hh numBkts x ≠ bucketOf hh numBkts a → x ≠ a :=
      fun x hx heq => hx (heq ▸ rfl)
    refine h.other hj hb (fun x hx => Function.update_of_ne (hne x hx) ..) (fun x hx => ?_) rfl
      fun x hx => or_iff_left (hne x hx)
    exact (setAt_of_ne (hhead x hx)).trans (Function.update_of_ne (hne x hx) ..)

theorem unlink (h : Buckets hh buckets numBkts S) (ha : S a)
    (hbkt : buckets[bucketOf hh numBkts a]? = some bkt) :
    Buckets (hashDelInBkt hh bkt a).1
      (buckets.set (bucketOf hh numBkts a) (hashDelInBkt hh bkt a).2) numBkts
      fun x => S x ∧ x ≠ a := by
  obtain ⟨c, hc, hnodup, hmem⟩ := h.chain _ bkt hbkt
  obtain ⟨u, v, rfl⟩ := List.append_of_mem ((hmem a).mpr ⟨ha, rfl⟩)
  obtain ⟨hprev, hnext⟩ := hc.linked.cell
  obtain ⟨hnotMem, hrest⟩ := List.nodup_cons.mp (List.nodup_middle.mp hnodup)
  refine ⟨by rw [List.length_set, h.length], fun j b hb => ?_⟩
  rw [hashDelInBkt_fst]
  by_cases hj : j = bucketOf hh numBkts a
  · subst hj
    rw [List.getElem?_set_self (List.getElem?_eq_some_iff.mp hbkt).1] at hb
    obtain rfl := Option.some.inj hb
    refine ⟨u ++ v, ⟨?_, hc.linked.remove hnodup, ?_⟩, hrest, fun x => ?_⟩
    · change (if bkt.hhHead = some a then hh.hhNext a else bkt.hhHead) = _
      rw [hc.head, hnext]
      cases u with
      | nil => exact if_pos rfl
      | cons b u =>
        refine if_neg fun heq => hnotMem ?_
        rw [← Option.some.inj heq]
        exact List.mem_cons_self
    · change bkt.count - 1 = _
      rw [hc.count, List.length_append, List.length_append, List.length_cons, ← Nat.add_assoc,
        UInt32.ofNat_add (_ + _) 1]
      exact UInt32.add_sub_cancel ..
    · have hmid : x ∈ u ++ a :: v ↔ x = a ∨ x ∈ u ++ v := by
        rw [List.perm_middle.mem_iff, List.mem_cons]
      change _ ↔ (S x ∧ x ≠ a) ∧ bucketOf hh numBkts x = _
      rw [and_right_comm, ← hmem, hmid]
      constructor
      · exact fun hx => ⟨Or.inr hx, fun heq => hnotMem (heq ▸ hx)⟩
      · exact fun hx => hx.1.resolve_left hx.2
  · rw [List.getElem?_set_ne (Ne.symm hj)] at hb
    have hsame : ∀ x ∈ u ++ a :: v, bucketOf hh numBkts x = bucketOf hh numBkts a :=
      fun x hx => ((hmem x).mp hx).2
    refine h.other hj hb (fun x hx => setAt_of_ne fun heq => hx (hsame x ?_))
      (fun x hx => setAt_of_ne fun heq => hx (hsame x ?_)) rfl
      fun x hx => and_iff_left fun heq => hx (heq ▸ rfl)
    · rw [hprev] at heq
      exact List.mem_append_left _ (List.mem_of_getLast? heq)
    · rw [hnext] at heq
      exact List.mem_append_right _ (List.mem_cons_of_mem _ (List.mem_of_head? heq))

end Buckets

section Expand

variable {e : Expansion} {ideal : UInt32} {M : Elem → Prop}

structure Moved (numBkts : UInt32) (e e' : Expansion) (T : Elem → Prop) : Prop where
  buckets : Buckets e'.hh e'.newBuckets numBkts T
  kept : Kept e.hh e'.hh T

theorem kept_link (hhead : ∀ x, bkt.hhHead = some x → S x) :
    Kept hh (hh.link bkt.hhHead a) fun x => S x ∨ x = a := by
  refine ⟨⟨rfl, rfl, rfl, rfl, rfl⟩, fun x hx => ?_, fun x hx => ?_⟩
  · exact Function.update_of_ne (fun heq => hx (Or.inr heq)) ..
  · refine (setAt_of_ne fun heq => hx (Or.inl (hhead x heq))).trans ?_
    exact Function.update_of_ne (fun heq => hx (Or.inr heq)) ..

theorem Buckets.head_mem (h : Buckets hh buckets numBkts S) (hbkt : buckets[i]? = some bkt)
    (x : Elem) (hx : bkt.hhHead = some x) : S x := by
  obtain ⟨c, hc, -, hmem⟩ := h.chain i bkt hbkt
  rw [hc.head] at hx
  exact ((hmem x).mp (List.mem_of_head? hx)).1

theorem move_spec (h : Buckets e.hh e.newBuckets numBkts M) (hpos : 0 < numBkts.toNat)
    (hideal : ideal ≠ 0) (ha : ¬ M a) :
    ∃ e', e.move ideal numBkts a = some e' ∧ Moved numBkts e e' fun x => M x ∨ x = a := by
  obtain ⟨bkt, hbkt⟩ := h.getElem? hpos a
  have hkept : Kept e.hh (e.hh.link bkt.hhHead a) fun x => M x ∨ x = a :=
    kept_link (h.head_mem hbkt)
  rw [Expansion.move]
  change ∃ e', (e.newBuckets[bucketOf e.hh numBkts a]?.bind _) = some e' ∧ _
  simp only [hbkt, Option.bind_some, if_neg hideal]
  split
  · exact ⟨_, rfl, h.link ha hbkt _, hkept⟩
  · exact ⟨_, rfl, h.link ha hbkt _, hkept⟩

theorem Moved.trans {e' e'' : Expansion} (h : Moved numBkts e e' S) (h' : Moved numBkts e' e'' T)
    (hsub : ∀ x, S x → T x) : Moved numBkts e e'' T :=
  ⟨h'.buckets, h.kept.trans h'.kept hsub⟩

theorem moveChain_spec {p : Option Elem} (h : Buckets e.hh e.newBuckets numBkts M)
    (hpos : 0 < numBkts.toNat) (hideal : ideal ≠ 0)
    (hlinked : Linked e.hh.hhNext e.hh.hhPrev none p c) (hnodup : c.Nodup)
    (hnew : ∀ x ∈ c, ¬ M x) {n : Nat} (hn : c.length ≤ n) :
    ∃ e', e.moveChain ideal numBkts n c.head? = some e' ∧
      Moved numBkts e e' fun x => M x ∨ x ∈ c := by
  induction c generalizing e M p n with
  | nil =>
    refine ⟨e, by cases n <;> rfl, h.congr_mem fun x => by simp, Kept.refl ..⟩
  | cons a c ih =>
    cases n with
    | zero => cases hn
    | succ n =>
      obtain ⟨hnotMem, hnodupc⟩ := List.nodup_cons.mp hnodup
      obtain ⟨e1, he1, hmoved⟩ := move_spec h hpos hideal (hnew a List.mem_cons_self)
      have hout : ∀ x ∈ c, ¬ (M x ∨ x = a) := by
        rintro x hx (hM | rfl)
        · exact hnew x (List.mem_cons_of_mem _ hx) hM
        · exact hnotMem hx
      have hrest : Linked e1.hh.hhNext e1.hh.hhPrev none (some a) c :=
        hlinked.2.2.congr (fun x hx => hmoved.kept.hhNext x (hout x hx))
          fun x hx => hmoved.kept.hhPrev x (hout x hx)
      obtain ⟨e2, he2, hmoved2⟩ :=
        ih hmoved.buckets hrest hnodupc hout (Nat.le_of_succ_le_succ hn)
      have hmem : ∀ x, ((M x ∨ x = a) ∨ x ∈ c) ↔ M x ∨ x ∈ a :: c := fun x => by
        rw [List.mem_cons, or_assoc]
      refine ⟨e2, ?_, (hmoved2.buckets.congr_mem hmem), ?_⟩
      · rw [List.head?_cons, Expansion.moveChain, he1, hlinked.2.1, Option.or_none]
        exact he2
      · have hall := (hmoved.trans hmoved2 fun x hx => Or.inl hx).kept
        simp only [hmem] at hall
        exact hall

theorem moveBuckets_spec (old : Elem → Nat) {n : Nat} (k : Nat) (e : Expansion)
    (hpos : 0 < numBkts.toNat) (hideal : ideal ≠ 0)
    (hn : ∀ c : List Elem, c.Nodup → (∀ x ∈ c, S x) → c.length ≤ n)
    (h : Buckets e.hh e.newBuckets numBkts M)
    (hchain : ∀ i bkt, buckets[i]? = some bkt → ∃ c, Chain e.hh bkt c ∧ c.Nodup ∧
      ∀ a, a ∈ c ↔ S a ∧ old a = k + i)
    (hnew : ∀ x, S x → k ≤ old x → ¬ M x) :
    ∃ e', buckets.foldlM (fun (e : Expansion) bkt => e.moveChain ideal numBkts n bkt.hhHead) e =
      some e' ∧
        Moved numBkts e e' fun x => M x ∨ S x ∧ k ≤ old x ∧ old x < k + buckets.length := by
  induction buckets generalizing e M k with
  | nil =>
    exact ⟨e, rfl, h.congr_mem fun x => (or_iff_left fun hx => Nat.not_lt.mpr hx.2.1 hx.2.2).symm,
      Kept.refl ..⟩
  | cons bkt buckets ih =>
    obtain ⟨c, hc, hnodup, hmem⟩ := hchain 0 bkt rfl
    obtain ⟨e1, he1, hmoved⟩ := moveChain_spec h hpos hideal hc.linked hnodup
      (fun x hx => hnew x ((hmem x).mp hx).1 (Nat.le_of_eq ((hmem x).mp hx).2.symm))
      (hn c hnodup fun x hx => ((hmem x).mp hx).1)
    have hout : ∀ x, S x → k + 1 ≤ old x → ¬ (M x ∨ x ∈ c) := by
      rintro x hS hk (hM | hx)
      · exact hnew x hS (Nat.le_of_succ_le hk) hM
      · exact absurd ((hmem x).mp hx).2 (by omega)
    obtain ⟨e2, he2, hmoved2⟩ := ih (k + 1) _ hmoved.buckets (fun i b hb => by
      obtain ⟨c', hc', hnodup', hmem'⟩ := hchain (i + 1) b hb
      have hlater : ∀ x ∈ c', ¬ (M x ∨ x ∈ c) := fun x hx =>
        hout x ((hmem' x).mp hx).1 (by rw [((hmem' x).mp hx).2]; omega)
      refine ⟨c', hc'.congr (fun x hx => hmoved.kept.hhNext x (hlater x hx))
        fun x hx => hmoved.kept.hhPrev x (hlater x hx), hnodup', fun a => ?_⟩
      rw [hmem', Nat.add_assoc, Nat.add_comm 1 i]) hout
    have hT : ∀ x, ((M x ∨ x ∈ c) ∨ S x ∧ k + 1 ≤ old x ∧ old x < k + 1 + buckets.length) ↔
        M x ∨ S x ∧ k ≤ old x ∧ old x < k + (bkt :: buckets).length := fun x => by
      rw [hmem, or_assoc, ← and_or_left, List.length_cons]
      exact or_congr_right (and_congr_right fun _ => by omega)
    refine ⟨e2, ?_, hmoved2.buckets.congr_mem hT, ?_⟩
    · rw [List.foldlM_cons, hc.head, he1]
      exact he2
    · have hall := (hmoved.trans hmoved2 fun x hx => Or.inl hx).kept
      simp only [hT] at hall
      exact hall

end Expand

structure Listed (hashFcn : Str → UInt32) (hh : Handles) (tbl : UtHashTable)
    (l : List (Elem × Str)) : Prop where
  nodup : (l.map Prod.fst).Nodup
  key : ∀ p ∈ l, hh.key p.1 = p.2
  keylen : ∀ p ∈ l, (hh.keylen p.1).toNat = p.2.length
  hashv : ∀ p ∈ l, hh.hashv p.1 = hashFcn p.2
  order : Linked hh.next hh.prev none none (l.map Prod.fst)
  tail : tbl.tail = (l.map Prod.fst).getLast?
  numItems : tbl.numItems.toNat = l.length
  log2 : tbl.numBuckets.toNat = 2 ^ tbl.log2NumBuckets.toNat

structure Table (hashFcn : Str → UInt32) (hh : Handles) (tbl : UtHashTable)
    (l : List (Elem × Str)) : Prop extends Listed hashFcn hh tbl l where
  buckets : Buckets hh tbl.buckets tbl.numBuckets (· ∈ l.map Prod.fst)

section Table

variable {hashFcn : Str → UInt32} {tbl : UtHashTable} {l : List (Elem × Str)}

theorem log2_lt (h : tbl.numBuckets.toNat = 2 ^ tbl.log2NumBuckets.toNat)
    (hroom : tbl.numBuckets.toNat < 2 ^ 31) : tbl.log2NumBuckets.toNat < 31 := by
  rw [h] at hroom
  exact (Nat.pow_lt_pow_iff_right (by decide)).mp hroom

theorem log2_succ (h : tbl.numBuckets.toNat = 2 ^ tbl.log2NumBuckets.toNat)
    (hroom : tbl.numBuckets.toNat < 2 ^ 31) :
    (tbl.log2NumBuckets + 1).toNat = tbl.log2NumBuckets.toNat + 1 := by
  have hlt := log2_lt h hroom
  rw [UInt32.toNat_add]
  change (tbl.log2NumBuckets.toNat + 1) % _ = _
  omega

theorem toNat_double (hroom : tbl.numBuckets.toNat < 2 ^ 31) :
    (tbl.numBuckets * 2).toNat = 2 * tbl.numBuckets.toNat := by
  rw [UInt32.toNat_mul]
  change tbl.numBuckets.toNat * 2 % _ = _
  omega

theorem idealChainMaxlen_ne (hlog : tbl.numBuckets.toNat = 2 ^ tbl.log2NumBuckets.toNat)
    (hroom : tbl.numBuckets.toNat < 2 ^ 31) (hitems : tbl.numItems.toNat ≠ 0) :
    idealChainMaxlen tbl ≠ 0 := by
  have hlt := log2_lt hlog hroom
  have hk := log2_succ hlog hroom
  have hhigh : (tbl.numItems >>> (tbl.log2NumBuckets + 1)).toNat =
      tbl.numItems.toNat / 2 ^ (tbl.log2NumBuckets.toNat + 1) := by
    rw [UInt32.toNat_shiftRight, hk, Nat.mod_eq_of_lt (by omega), Nat.shiftRight_eq_div_pow]
  have hlow : (tbl.numItems &&& (tbl.numBuckets * 2 - 1)).toNat =
      tbl.numItems.toNat % 2 ^ (tbl.log2NumBuckets.toNat + 1) := by
    have hone : (1 : UInt32) ≤ tbl.numBuckets * 2 := by
      rw [UInt32.le_iff_toNat_le, toNat_double hroom, hlog]
      exact Nat.mul_pos (by decide) (Nat.two_pow_pos _)
    rw [UInt32.toNat_and, UInt32.toNat_sub_of_le _ _ hone, toNat_double hroom, hlog,
      ← Nat.pow_succ']
    exact Nat.and_two_pow_sub_one_eq_mod ..
  intro hzero
  have hsum := congrArg UInt32.toNat hzero
  rw [idealChainMaxlen, UInt32.toNat_add, hhigh] at hsum
  change _ = 0 at hsum
  have hdiv : tbl.numItems.toNat / 2 ^ (tbl.log2NumBuckets.toNat + 1) ≤
      tbl.numItems.toNat / 2 :=
    Nat.div_le_div_left (Nat.le_self_pow (Nat.succ_ne_zero _) 2) (by decide)
  have hbound := tbl.numItems.toNat_lt
  split at hsum
  · rename_i hz
    rw [hz] at hlow
    have hmod := Nat.div_add_mod tbl.numItems.toNat (2 ^ (tbl.log2NumBuckets.toNat + 1))
    rw [← hlow] at hmod
    change (_ + 0) % _ = 0 at hsum
    rw [Nat.add_zero, Nat.mod_eq_of_lt (by omega)] at hsum
    rw [hsum] at hmod
    exact hitems hmod.symm
  · change (_ + 1) % _ = 0 at hsum
    omega

theorem Listed.of_sameOrder {tbl' : UtHashTable} (h : Listed hashFcn hh tbl l)
    (hsame : SameOrder hh hh') (htail : tbl'.tail = tbl.tail)
    (hitems : tbl'.numItems = tbl.numItems)
    (hlog : tbl'.numBuckets.toNat = 2 ^ tbl'.log2NumBuckets.toNat) :
    Listed hashFcn hh' tbl' l :=
  ⟨h.nodup, hsame.key ▸ h.key, hsame.keylen ▸ h.keylen, hsame.hashv ▸ h.hashv,
    hsame.next ▸ hsame.prev ▸ h.order, htail.trans h.tail, hitems ▸ h.numItems, hlog⟩

theorem Table.expand (h : Table hashFcn hh tbl l) (hne : l ≠ [])
    (hroom : tbl.numBuckets.toNat < 2 ^ 31) :
    ∃ hh' tbl', hashExpandBuckets hh tbl = some (hh', tbl') ∧ Table hashFcn hh' tbl' l := by
  have hdouble := toNat_double hroom
  have hpos : 0 < (tbl.numBuckets * 2).toNat := by
    rw [hdouble, h.log2]
    exact Nat.mul_pos (by decide) (Nat.two_pow_pos _)
  have hitems : tbl.numItems.toNat ≠ 0 := by
    rw [h.numItems]
    exact fun heq => hne (List.eq_nil_of_length_eq_zero heq)
  have hlen : ∀ c : List Elem, c.Nodup → (∀ x ∈ c, x ∈ l.map Prod.fst) →
      c.length ≤ tbl.numItems.toNat := by
    intro c hnodup hsub
    rw [h.numItems, ← List.length_map Prod.fst]
    exact hnodup.length_le_of_subset hsub
  have hold : ∀ x, bucketOf hh tbl.numBuckets x < tbl.numBuckets.toNat :=
    bucketOf_lt (h.log2 ▸ Nat.two_pow_pos _) hh
  have hempty : Buckets hh (emptyBuckets (tbl.numBuckets * 2)) (tbl.numBuckets * 2)
      fun _ => False :=
    Buckets.empty ..
  obtain ⟨e, he, hmoved⟩ := moveBuckets_spec (bucketOf hh tbl.numBuckets) 0
    ⟨hh, emptyBuckets (tbl.numBuckets * 2), 0⟩ hpos
    (idealChainMaxlen_ne h.log2 hroom hitems) hlen hempty
    (fun i bkt hbkt => by
      simp only [Nat.zero_add]
      exact h.buckets.chain i bkt hbkt) fun _ _ _ => id
  have hT : ∀ x, (False ∨ x ∈ l.map Prod.fst ∧ 0 ≤ bucketOf hh tbl.numBuckets x ∧
      bucketOf hh tbl.numBuckets x < 0 + tbl.buckets.length) ↔ x ∈ l.map Prod.fst := fun x => by
    rw [false_or, Nat.zero_add, h.buckets.length]
    exact and_iff_left ⟨Nat.zero_le _, hold x⟩
  rw [hashExpandBuckets]
  dsimp only
  rw [he]
  refine ⟨_, _, rfl, h.toListed.of_sameOrder hmoved.kept.toSameOrder rfl rfl ?_,
    hmoved.buckets.congr_mem hT⟩
  change (tbl.numBuckets * 2).toNat = 2 ^ (tbl.log2NumBuckets + 1).toNat
  rw [hdouble, log2_succ h.log2 hroom, h.log2, Nat.pow_succ']

theorem Listed.addToBkt (h : Listed hashFcn hh tbl l)
    (hbuckets : Buckets hh tbl.buckets tbl.numBuckets S) (ha : ¬ S a)
    (hS : ∀ x, (S x ∨ x = a) ↔ x ∈ l.map Prod.fst) (hroom : tbl.numBuckets.toNat < 2 ^ 31) :
    ∃ hh' tbl', hashAddToBkt hh tbl (bucketOf hh tbl.numBuckets a) a = some (hh', tbl') ∧
      Table hashFcn hh' tbl' l := by
  have hpos : 0 < tbl.numBuckets.toNat := h.log2 ▸ Nat.two_pow_pos _
  obtain ⟨bkt, hbkt⟩ := hbuckets.getElem? hpos a
  have htable : Table hashFcn (hh.link bkt.hhHead a)
      { tbl with buckets := tbl.buckets.set (bucketOf hh tbl.numBuckets a)
                              ⟨some a, bkt.count + 1, bkt.expandMult⟩ } l := by
    have hkept : Kept hh (hh.link bkt.hhHead a) _ := kept_link (hbuckets.head_mem hbkt)
    exact ⟨h.of_sameOrder hkept.toSameOrder rfl rfl h.log2,
      (hbuckets.link ha hbkt bkt.expandMult).congr_mem hS⟩
  rw [hashAddToBkt, hbkt, Option.bind_some]
  dsimp only
  split
  · refine htable.expand (fun hnil => ?_) hroom
    have hin := (hS a).mp (Or.inr rfl)
    rw [hnil] at hin
    exact List.not_mem_nil hin
  · exact ⟨_, _, rfl, htable⟩

end Table

def Represents (hashFcn : Str → UInt32) (t : Hash) (l : List (Elem × Str)) : Prop :=
  match t.head with
  | none => l = []
  | some (head, tbl) => (l.map Prod.fst).head? = some head ∧ Table hashFcn t.hh tbl l

def Roomy (t : Hash) : Prop :=
  match t.head with
  | none => True
  | some (_, tbl) => tbl.numBuckets.toNat < 2 ^ 31

instance (t : Hash) : Decidable (Roomy t) := by
  unfold Roomy
  split <;> infer_instance

section Represents

variable {hashFcn : Str → UInt32} {t : Hash} {l : List (Elem × Str)} {key : Str}

structure Joined (hashFcn : Str → UInt32) (hh : Handles) (head : Elem) (tbl : UtHashTable)
    (l : List (Elem × Str)) (a : Elem) (key : Str) : Prop where
  head_eq : ((l ++ [(a, key)]).map Prod.fst).head? = some head
  listed : Listed hashFcn hh tbl (l ++ [(a, key)])
  buckets : Buckets hh tbl.buckets tbl.numBuckets (· ∈ l.map Prod.fst)
  room : tbl.numBuckets.toNat < 2 ^ 31

theorem Represents.append (h : Represents hashFcn t l) (ha : a ∉ l.map Prod.fst)
    (hkey : key.length < 2 ^ 32) (hsize : l.length + 1 < 2 ^ 32) (hroom : Roomy t) :
    ∃ hh head tbl, append ⟨t.hh.setKey a key, t.head⟩ a = (hh, head, tbl) ∧
      Joined hashFcn (hh.setHashv a (hashFcn key)) head
        { tbl with numItems := tbl.numItems + 1 } l a key := by
  obtain ⟨hh, head⟩ := t
  cases head with
  | none =>
    obtain rfl : l = [] := h
    refine ⟨_, _, _, rfl, rfl, ⟨List.nodup_singleton _, ?_, ?_, ?_, ⟨?_, ?_, trivial⟩, rfl, rfl,
      rfl⟩, (Buckets.empty _ hashInitialNumBuckets).congr_mem (by simp), ?_⟩
    · simp [Handles.setKey, Handles.setHashv]
    · simpa [Handles.setKey, Handles.setHashv] using hkey
    · simp [Handles.setHashv]
    · exact Function.update_self ..
    · exact Function.update_self ..
    · change hashInitialNumBuckets.toNat < 2 ^ 31
      decide
  | some p =>
    obtain ⟨hhead, htable⟩ := h
    have hne : ∀ x ∈ l.map Prod.fst, x ≠ a := fun x hx heq => ha (heq ▸ hx)
    have hpne : ∀ p ∈ l, p.1 ≠ a := fun p hp => hne _ (List.mem_map_of_mem hp)
    refine ⟨_, _, _, rfl, ?_, ⟨?_, ?_, ?_, ?_, ?_, ?_, ?_, htable.log2⟩, ?_, hroom⟩
    · rw [List.map_append, List.head?_append, hhead]
      rfl
    · rw [List.map_append]
      exact List.nodup_append.mpr ⟨htable.nodup, List.nodup_singleton _, fun x hx y hy =>
        List.mem_singleton.mp hy ▸ hne x hx⟩
    · refine List.forall_mem_append.mpr ⟨fun p hp => ?_, by simp [Handles.setKey, Handles.setHashv]⟩
      exact (Function.update_of_ne (hpne p hp) ..).trans (htable.key p hp)
    · refine List.forall_mem_append.mpr ⟨fun p hp => ?_, ?_⟩
      · refine (congrArg UInt32.toNat ?_).trans (htable.keylen p hp)
        exact Function.update_of_ne (hpne p hp) ..
      · simpa [Handles.setKey, Handles.setHashv] using hkey
    · refine List.forall_mem_append.mpr ⟨fun p hp => ?_, by simp [Handles.setHashv]⟩
      exact (Function.update_of_ne (hpne p hp) ..).trans (htable.hashv p hp)
    · rw [List.map_append]
      have hsnoc := htable.order.snoc htable.nodup ha
      rw [← htable.tail] at hsnoc
      exact hsnoc
    · rw [List.map_append]
      exact List.getLast?_concat.symm
    · change (p.2.numItems + 1).toNat = _
      rw [UInt32.toNat_add, htable.numItems, List.length_append]
      exact Nat.mod_eq_of_lt hsize
    · exact htable.buckets.congr (fun _ _ => rfl) (fun _ _ => rfl) fun x hx =>
        Function.update_of_ne (hne x hx) ..

theorem Represents.add (h : Represents hashFcn t l) (ha : a ∉ l.map Prod.fst)
    (hkey : key.length < 2 ^ 32) (hsize : l.length + 1 < 2 ^ 32) (hroom : Roomy t) :
    ∃ t', hashAddKeyptr hashFcn t key a = some t' ∧
      Represents hashFcn t' (l ++ [(a, key)]) := by
  obtain ⟨hh, head, tbl, happend, hjoined⟩ := h.append ha hkey hsize hroom
  obtain ⟨hh', tbl', hadd, htable⟩ := hjoined.listed.addToBkt hjoined.buckets ha
    (fun x => by simp) hjoined.room
  have hbkt : bucketOf (hh.setHashv a (hashFcn key))
      tbl.numBuckets a = (hashToBkt (hashFcn key) tbl.numBuckets).toNat := by
    rw [bucketOf, Handles.setHashv_self]
  rw [hbkt] at hadd
  rw [hashAddKeyptr, happend]
  dsimp only
  rw [hadd]
  exact ⟨_, rfl, hjoined.head_eq, htable⟩

section Middle

variable {tbl : UtHashTable} {u v : List (Elem × Str)} {head : Elem}

theorem Listed.unlink (h : Listed hashFcn hh tbl (u ++ (a, key) :: v)) (bkt : UtHashBucket)
    (buckets : List UtHashBucket) :
    Listed hashFcn (hashDelInBkt (hh.unlink a) bkt a).1 { tbl with
      tail := if tbl.tail = some a then hh.prev a else tbl.tail
      buckets := buckets
      numItems := tbl.numItems - 1 } (u ++ v) := by
  have horder := h.order
  have hnodup := h.nodup
  have htail := h.tail
  have hitems := h.numItems
  rw [List.map_append, List.map_cons] at horder hnodup htail
  rw [List.length_append, List.length_cons] at hitems
  have hsub : ∀ p ∈ u ++ v, p ∈ u ++ (a, key) :: v := fun p hp =>
    List.perm_middle.mem_iff.mpr (List.mem_cons_of_mem _ hp)
  refine ⟨?_, fun p hp => h.key p (hsub p hp), fun p hp => h.keylen p (hsub p hp),
    fun p hp => h.hashv p (hsub p hp), ?_, ?_, ?_, h.log2⟩
  · rw [List.map_append]
    exact (List.nodup_middle.mp hnodup).of_cons
  · change Linked (hh.unlink a).next (hh.unlink a).prev none none _
    rw [unlink_eq, List.map_append]
    exact horder.remove hnodup
  · change (if tbl.tail = some a then hh.prev a else tbl.tail) = _
    rw [htail, horder.cell.1, List.map_append]
    rcases List.eq_nil_or_concat v with rfl | ⟨w, z, rfl⟩
    · simp
    · have hza : z.1 ≠ a := fun heq => (List.nodup_cons.mp (List.nodup_middle.mp hnodup)).1
        (by simp [← heq])
      simp only [List.concat_eq_append, List.map_append, List.map_cons, List.map_nil]
      rw [← List.cons_append, ← List.append_assoc, List.getLast?_concat,
        if_neg fun heq => hza (Option.some.inj heq), ← List.append_assoc, List.getLast?_concat]
  · change (tbl.numItems - 1).toNat = _
    rw [UInt32.toNat_sub_of_le _ _ (UInt32.le_iff_toNat_le.mpr ?_), hitems, List.length_append]
    · change u.length + (v.length + 1) - 1 = _
      omega
    · change 1 ≤ _
      omega

theorem exists_head (h : Linked hh.next hh.prev none none (u.map Prod.fst ++ a :: v.map Prod.fst))
    (hhead : (u.map Prod.fst ++ a :: v.map Prod.fst).head? = some head)
    (hnot : ¬ (hh.prev a = none ∧ hh.next a = none)) :
    ∃ head', (if hh.prev a = none then hh.next a else some head) = some head' ∧
      ((u ++ v).map Prod.fst).head? = some head' := by
  obtain ⟨hprev, hnext⟩ := h.cell
  rw [hprev, hnext] at hnot ⊢
  cases u with
  | cons p u =>
    have hne : ((p :: u).map Prod.fst).getLast? ≠ none := by simp
    rw [if_neg hne]
    exact ⟨head, rfl, hhead⟩
  | nil =>
    cases v with
    | nil => exact absurd ⟨rfl, rfl⟩ hnot
    | cons p v => exact ⟨p.1, rfl, rfl⟩

end Middle

theorem Represents.delete (h : Represents hashFcn t l) (ha : a ∈ l.map Prod.fst) :
    ∃ t', hashDelete t a = some t' ∧ Represents hashFcn t' (l.filter (·.1 ≠ a)) := by
  obtain ⟨⟨a, key⟩, hp, rfl⟩ := List.mem_map.mp ha
  obtain ⟨u, v, rfl⟩ := List.append_of_mem hp
  obtain ⟨hh, head⟩ := t
  cases head with
  | none => exact absurd h (List.append_ne_nil_of_right_ne_nil _ (List.cons_ne_nil _ _))
  | some p =>
    obtain ⟨head, tbl⟩ := p
    obtain ⟨hhead, htable⟩ := h
    have horder := htable.order
    rw [List.map_append, List.map_cons] at horder hhead
    rw [filter_cell htable.nodup, hashDelete]
    dsimp only
    by_cases hlast : hh.prev a = none ∧ hh.next a = none
    · rw [if_pos hlast]
      obtain ⟨hprev, hnext⟩ := horder.cell
      rw [hprev, hnext, List.getLast?_eq_none_iff, List.map_eq_nil_iff, List.head?_eq_none_iff,
        List.map_eq_nil_iff] at hlast
      obtain ⟨rfl, rfl⟩ := hlast
      exact ⟨_, rfl, rfl⟩
    · rw [if_neg hlast]
      have hpos : 0 < tbl.numBuckets.toNat := htable.log2 ▸ Nat.two_pow_pos _
      obtain ⟨bkt, hbkt⟩ := htable.buckets.getElem? hpos a
      have hkept : Buckets (hh.unlink a) tbl.buckets tbl.numBuckets _ :=
        htable.buckets.congr (fun _ _ => rfl) (fun _ _ => rfl) fun _ _ => rfl
      have hchains := hkept.unlink (List.mem_map_of_mem hp) hbkt
      obtain ⟨head', hhead', hfirst⟩ := exists_head horder hhead hlast
      change ∃ t', (tbl.buckets[bucketOf hh tbl.numBuckets a]?.map _) = some t' ∧ _
      rw [hbkt, Option.map_some, hhead']
      refine ⟨_, rfl, hfirst, htable.toListed.unlink bkt _, hchains.congr_mem fun x => ?_⟩
      have hnotMem : a ∉ (u ++ v).map Prod.fst := by
        have hnodup := htable.nodup
        rw [List.map_append, List.map_cons] at hnodup
        rw [List.map_append]
        exact (List.nodup_cons.mp (List.nodup_middle.mp hnodup)).1
      have hmid : x ∈ (u ++ (a, key) :: v).map Prod.fst ↔ x = a ∨ x ∈ (u ++ v).map Prod.fst := by
        rw [(List.perm_middle.map _).mem_iff, List.map_cons, List.mem_cons]
      rw [hmid]
      constructor
      · exact fun hx => hx.1.resolve_left hx.2
      · exact fun hx => ⟨Or.inr hx, fun (heq : x = a) => hnotMem (heq ▸ hx)⟩

end Represents

section Find

variable {hashFcn : Str → UInt32} {t : Hash} {l : List (Elem × Str)} {key : Str}

theorem find?_unique {α : Type*} {p : α → Bool} {l : List α} {x : α} (hx : x ∈ l)
    (hp : ∀ y ∈ l, p y = true ↔ y = x) : l.find? p = some x := by
  cases hfind : l.find? p with
  | none => exact absurd ((hp x hx).mpr rfl) (List.find?_eq_none.mp hfind x hx)
  | some y => rw [(hp y (List.mem_of_find?_eq_some hfind)).mp (List.find?_some hfind)]

def sameKey (hh : Handles) (key : Str) (a : Elem) : Bool :=
  (hh.keylen a).toNat = key.length ∧ (hh.key a).take key.length = key

theorem hashFindInBkt_eq {p : Option Elem} (h : Linked hh.hhNext hh.hhPrev none p c) {n : Nat}
    (hn : c.length ≤ n) (key : Str) :
    hashFindInBkt hh key n c.head? = some (c.find? (sameKey hh key)) := by
  induction c generalizing p n with
  | nil => cases n <;> rfl
  | cons a c ih =>
    cases n with
    | zero => cases hn
    | succ n =>
      rw [List.head?_cons, hashFindInBkt, List.find?_cons]
      by_cases hsame : (hh.keylen a).toNat = key.length ∧ (hh.key a).take key.length = key
      · rw [if_pos hsame, sameKey, decide_eq_true hsame]
      · rw [if_neg hsame, sameKey, decide_eq_false hsame, h.2.1, Option.or_none]
        exact ih h.2.2 (Nat.le_of_succ_le_succ hn)

theorem Listed.sameKey_iff {tbl : UtHashTable} (h : Listed hashFcn hh tbl l) {p : Elem × Str}
    (hp : p ∈ l) (key : Str) : sameKey hh key p.1 = true ↔ p.2 = key := by
  rw [sameKey, decide_eq_true_iff, h.key p hp, h.keylen p hp]
  constructor
  · rintro ⟨hlen, htake⟩
    rwa [List.take_of_length_le (Nat.le_of_eq hlen)] at htake
  · rintro rfl
    exact ⟨rfl, List.take_length⟩

theorem Represents.find (h : Represents hashFcn t l) (hkeys : (l.map Prod.snd).Nodup) (key : Str) :
    hashFind hashFcn t key = some ((l.find? (·.2 = key)).map Prod.fst) := by
  obtain ⟨hh, head⟩ := t
  cases head with
  | none =>
    obtain rfl : l = [] := h
    rfl
  | some p =>
    obtain ⟨head, tbl⟩ := p
    obtain ⟨hhead, htable⟩ := h
    have hpos : 0 < tbl.numBuckets.toNat := htable.log2 ▸ Nat.two_pow_pos _
    have hbucket : ∀ p ∈ l, bucketOf hh tbl.numBuckets p.1 =
        (hashToBkt (hashFcn p.2) tbl.numBuckets).toNat := fun p hp => by
      rw [bucketOf, htable.hashv p hp]
    have hlt : (hashToBkt (hashFcn key) tbl.numBuckets).toNat < tbl.buckets.length := by
      rw [htable.buckets.length]
      exact bucketOf_lt hpos (hh.setHashv 0 (hashFcn key)) 0
    obtain ⟨c, hc, hnodup, hmem⟩ := htable.buckets.chain _ _ (List.getElem?_eq_getElem hlt)
    have hlen : c.length ≤ tbl.numItems.toNat := by
      rw [htable.numItems, ← List.length_map Prod.fst]
      exact hnodup.length_le_of_subset fun x hx => ((hmem x).mp hx).1
    rw [hashFind]
    dsimp only
    rw [List.getElem?_eq_getElem hlt, Option.bind_some, hc.head, hashFindInBkt_eq hc.linked hlen]
    congr 1
    cases hfind : l.find? (·.2 = key) with
    | none =>
      refine List.find?_eq_none.mpr fun x hx hsame => ?_
      obtain ⟨p, hp, rfl⟩ := List.mem_map.mp ((hmem x).mp hx).1
      exact List.find?_eq_none.mp hfind p hp
        (decide_eq_true ((htable.toListed.sameKey_iff hp key).mp hsame))
    | some q =>
      have hq := List.mem_of_find?_eq_some hfind
      have hkey : q.2 = key := by simpa using List.find?_some hfind
      refine find?_unique ((hmem q.1).mpr ⟨List.mem_map_of_mem hq, ?_⟩) fun x hx => ?_
      · rw [hbucket q hq, hkey]
      · obtain ⟨p, hp, rfl⟩ := List.mem_map.mp ((hmem x).mp hx).1
        rw [htable.toListed.sameKey_iff hp key, ← hkey]
        constructor
        · exact fun heq => congrArg Prod.fst (List.inj_on_of_nodup_map hkeys hp hq heq)
        · exact fun heq => congrArg Prod.snd (List.inj_on_of_nodup_map htable.nodup hp hq heq)

theorem Represents.nodup (h : Represents hashFcn t l) : (l.map Prod.fst).Nodup := by
  obtain ⟨hh, head⟩ := t
  cases head with
  | none =>
    obtain rfl : l = [] := h
    exact List.nodup_nil
  | some p => exact h.2.nodup

theorem Represents.head_eq (h : Represents hashFcn t l) :
    t.head.map Prod.fst = (l.map Prod.fst).head? := by
  obtain ⟨hh, head⟩ := t
  cases head with
  | none =>
    obtain rfl : l = [] := h
    rfl
  | some p => exact h.1.symm

theorem Represents.next_eq {u v : List (Elem × Str)} {p : Elem × Str}
    (h : Represents hashFcn t (u ++ p :: v)) : t.hh.next p.1 = (v.map Prod.fst).head? := by
  obtain ⟨hh, head⟩ := t
  cases head with
  | none => exact absurd h (List.append_ne_nil_of_right_ne_nil _ (List.cons_ne_nil _ _))
  | some q =>
    have horder := h.2.order
    rw [List.map_append, List.map_cons] at horder
    exact horder.cell.2

theorem next_of_delete {t' : Hash} (hprev : t.hh.prev a = none) (hdel : hashDelete t a = some t') :
    t'.hh.next a = t.hh.next a := by
  obtain ⟨hh, head⟩ := t
  cases head with
  | none => cases hdel
  | some p =>
    obtain ⟨head, tbl⟩ := p
    rw [hashDelete] at hdel
    dsimp only at hdel
    split at hdel
    · rw [← Option.some.inj hdel]
    · obtain ⟨bkt, -, rfl⟩ := Option.map_eq_some_iff.mp hdel
      change setAt hh.next (hh.prev a) (hh.next a) a = hh.next a
      rw [hprev, setAt_none]

theorem Represents.delete_head {p : Elem × Str} (h : Represents hashFcn t (p :: l)) :
    ∃ t', hashDelete t p.1 = some t' ∧ Represents hashFcn t' l ∧
      t'.hh.next p.1 = (l.map Prod.fst).head? := by
  have hprev : t.hh.prev p.1 = none := by
    obtain ⟨hh, head⟩ := t
    cases head with
    | none => exact absurd h (List.cons_ne_nil _ _)
    | some q => exact h.2.order.1
  obtain ⟨t', hdel, ht'⟩ := h.delete (a := p.1) (by simp)
  rw [show (p :: l).filter (·.1 ≠ p.1) = l from filter_cell (u := []) h.nodup] at ht'
  refine ⟨t', hdel, ht', ?_⟩
  rw [next_of_delete hprev hdel]
  exact Represents.next_eq (u := []) h

theorem roomy_delete {t' : Hash} (h : Roomy t) (hdel : hashDelete t a = some t') : Roomy t' := by
  obtain ⟨hh, head⟩ := t
  cases head with
  | none => cases hdel
  | some p =>
    obtain ⟨head, tbl⟩ := p
    rw [hashDelete] at hdel
    dsimp only at hdel
    split at hdel
    · rw [← Option.some.inj hdel]
      trivial
    · obtain ⟨bkt, -, rfl⟩ := Option.map_eq_some_iff.mp hdel
      generalize (if hh.prev a = none then hh.next a else some head) = head'
      cases head' with
      | none => trivial
      | some head' => exact h

theorem Represents.elements (h : Represents hashFcn t l) :
    t.elements = some (l.map Prod.fst) := by
  obtain ⟨hh, head⟩ := t
  cases head with
  | none =>
    obtain rfl : l = [] := h
    rfl
  | some p =>
    obtain ⟨hhead, htable⟩ := h
    have hlen : (l.map Prod.fst).length ≤ p.2.numItems.toNat :=
      Nat.le_of_eq ((List.length_map _).trans htable.numItems.symm)
    rw [Hash.elements]
    dsimp only
    rw [← hhead]
    exact htable.order.cells_eq hlen

end Find

def Op.apply : Op → List (Elem × Str) → List (Elem × Str)
  | .add key a, l => l ++ [(a, key)]
  | .del a, l => l.filter (·.1 ≠ a)

def contents (ops : List Op) : List (Elem × Str) := ops.foldl (fun l op => op.apply l) []

/-- The macros are used as they may be: a new element has a new key, an element that is deleted
is in the table. -/
def Usable (hashFcn : Str → UInt32) (t : Hash) : Op → Prop
  | .add key a =>
    a ∉ t.elements.getD [] ∧ hashFind hashFcn t key = some none ∧ key.length < 2 ^ 32 ∧
      (hashCount t).toNat + 1 < 2 ^ 32 ∧ Roomy t
  | .del a => a ∈ t.elements.getD []

instance (hashFcn : Str → UInt32) (t : Hash) (op : Op) : Decidable (Usable hashFcn t op) := by
  cases op <;> unfold Usable <;> infer_instance

section Run

variable {hashFcn : Str → UInt32} {t : Hash} {l : List (Elem × Str)} {op : Op} {ops : List Op}

theorem Represents.count (h : Represents hashFcn t l) : (hashCount t).toNat = l.length := by
  obtain ⟨hh, head⟩ := t
  cases head with
  | none =>
    obtain rfl : l = [] := h
    rfl
  | some p => exact h.2.numItems

structure Inv (hashFcn : Str → UInt32) (t : Hash) (l : List (Elem × Str)) : Prop where
  represents : Represents hashFcn t l
  keys : (l.map Prod.snd).Nodup

theorem inv_init (hashFcn : Str → UInt32) : Inv hashFcn Hash.init [] := ⟨rfl, List.nodup_nil⟩

theorem Inv.next (h : Inv hashFcn t l) (hop : Usable hashFcn t op) :
    ∃ t', next hashFcn t op = some t' ∧ Inv hashFcn t' (op.apply l) := by
  cases op with
  | add key a =>
    obtain ⟨ha, hfind, hkey, hsize, hroom⟩ := hop
    rw [h.represents.elements] at ha
    rw [h.represents.count] at hsize
    obtain ⟨t', ht', hrep⟩ := h.represents.add ha hkey hsize hroom
    refine ⟨t', ht', hrep, ?_⟩
    have hnew : key ∉ l.map Prod.snd := by
      intro hin
      obtain ⟨p, hp, rfl⟩ := List.mem_map.mp hin
      rw [h.represents.find h.keys, Option.some.injEq, Option.map_eq_none_iff,
        List.find?_eq_none] at hfind
      exact hfind p hp (decide_eq_true rfl)
    change ((l ++ [(a, key)]).map Prod.snd).Nodup
    rw [List.map_append]
    refine List.nodup_append.mpr ⟨h.keys, List.nodup_singleton _, fun x hx y hy => ?_⟩
    rw [List.mem_singleton.mp hy]
    exact ne_of_mem_of_not_mem hx hnew
  | del a =>
    change a ∈ _ at hop
    rw [h.represents.elements] at hop
    obtain ⟨t', ht', hrep⟩ := h.represents.delete hop
    exact ⟨t', ht', hrep, h.keys.sublist (List.filter_sublist.map _)⟩

theorem Inv.run (h : Inv hashFcn t l) (hops : Along (Uthash.next hashFcn) (Usable hashFcn) t ops) :
    ∃ t', Lib.run (Uthash.next hashFcn) t ops = some t' ∧
      Inv hashFcn t' (ops.foldl (fun l op => op.apply l) l) := by
  induction ops generalizing t l with
  | nil => exact ⟨t, rfl, h⟩
  | cons op ops ih =>
    obtain ⟨u, hu, hinv⟩ := h.next hops.1
    obtain ⟨t', hrun, hend⟩ := ih hinv (hops.2 u hu)
    refine ⟨t', ?_, hend⟩
    rw [Lib.run, hu]
    exact hrun

end Run

/-- The table is the list of its elements in the order of their addition, whatever the hash
function and however often the buckets were doubled. -/
theorem uthash_refines (hashFcn : Str → UInt32) (ops : List Op)
    (h : Along (next hashFcn) (Usable hashFcn) Hash.init ops) :
    ∃ t, run (next hashFcn) Hash.init ops = some t ∧
      t.elements = some ((contents ops).map Prod.fst) ∧
      (hashCount t).toNat = (contents ops).length ∧
      ∀ key, hashFind hashFcn t key = some (((contents ops).find? (·.2 = key)).map Prod.fst) := by
  obtain ⟨t, hrun, hinv⟩ := (inv_init hashFcn).run h
  exact ⟨t, hrun, hinv.represents.elements, hinv.represents.count,
    hinv.represents.find hinv.keys⟩

/-- Three keys in one bucket. -/
theorem uthash_refines_collisions : ∃ t,
    run (next fun _ => 7) Hash.init
      [.add (ascii "a") 1, .add (ascii "b") 2, .add (ascii "c") 3, .del 2] = some t ∧
    t.elements = some [1, 3] ∧ (hashCount t).toNat = 2 ∧
      ∀ key, hashFind (fun _ => 7) t key =
        some (([(1, ascii "a"), (3, ascii "c")].find? (·.2 = key)).map Prod.fst) :=
  uthash_refines (fun _ => 7)
    [.add (ascii "a") 1, .add (ascii "b") 2, .add (ascii "c") 3, .del 2] (by decide +kernel)

end IvyBus.Uthash
