import JudgeServer.Uthash.Table

/-! What the operations of uthash keep: the elements form one list in the order they
were added, and each of them is in the chain of the bucket that its hash value selects.
Adding, deleting and doubling the number of buckets all preserve it. -/

namespace JudgeServer.Uthash

open Links

variable {hashFcn : UInt32 → UInt32}

/-- The list of all elements; without elements there is no table. -/
structure Ordered (h : Hash) (items : List ℕ) : Prop where
  head : h.head = items.head?
  linked : Linked h.hh.prev h.hh.next items
  tail : items ≠ [] → h.tbl.tail = items.getLast?
  numItems : items ≠ [] → h.tbl.numItems = UInt32.ofNat items.length

/-- The chains of the buckets. -/
structure Chained (hashFcn : UInt32 → UInt32) (h : Hash) (items : List ℕ) (chains : ℕ → List ℕ) :
    Prop where
  log2 : h.tbl.log2NumBuckets.toNat < 32
  size : h.tbl.numBuckets.toNat = 2 ^ h.tbl.log2NumBuckets.toNat
  hashv : ∀ x ∈ items, h.hh.hashv x = hashFcn (h.hh.key x)
  hhHead : ∀ i, (h.tbl.buckets i).hhHead = (chains i).head?
  count : ∀ i, (h.tbl.buckets i).count = UInt32.ofNat (chains i).length
  linked : ∀ i, Linked h.hh.hhPrev h.hh.hhNext (chains i)
  mem : ∀ i x, x ∈ chains i ↔ x ∈ items ∧ h.bktOf x = i

/-- `&` with one less than a power of two is the remainder. -/
theorem hashToBkt_eq {hashv numBkts : UInt32} {k : ℕ} (h : numBkts.toNat = 2 ^ k) :
    hashToBkt hashv numBkts = hashv.toNat % numBkts.toNat := by
  have hpos : 1 ≤ numBkts.toNat := by rw [h]; exact Nat.one_le_two_pow
  have hsub : (numBkts - 1).toNat = 2 ^ k - 1 := by
    rw [UInt32.toNat_sub_of_le numBkts 1 (UInt32.le_iff_toNat_le.2 hpos), h]
    rfl
  rw [hashToBkt, UInt32.toNat_and, hsub, Nat.and_two_pow_sub_one_eq_mod, h]

theorem Chained.bkt_lt {h : Hash} {items : List ℕ} {chains : ℕ → List ℕ}
    (hc : Chained hashFcn h items chains) (x : ℕ) : h.bktOf x < h.tbl.numBuckets.toNat := by
  rw [Hash.bktOf, hashToBkt_eq hc.size]
  exact Nat.mod_lt _ (by rw [hc.size]; exact Nat.two_pow_pos _)

/-- The links of an element that goes in front of a chain. -/
theorem chain_linked {hh : Handles} {b : Bucket} {x : ℕ} {l : List ℕ}
    (h : Linked hh.hhPrev hh.hhNext l) (hhead : b.hhHead = l.head?) (hx : x ∉ l) :
    Linked (hh.chain b x).hhPrev (hh.chain b x).hhNext (x :: l) := by
  simp only [Handles.chain, hhead]
  exact h.push_front hx

/-- Another chain does not notice it. -/
theorem chain_other {hh : Handles} {b : Bucket} {x : ℕ} {l m : List ℕ}
    (h : Linked hh.hhPrev hh.hhNext m) (hhead : b.hhHead = l.head?) (hx : x ∉ m)
    (hdisj : ∀ y ∈ m, y ∉ l) : Linked (hh.chain b x).hhPrev (hh.chain b x).hhNext m := by
  have hne : ∀ y ∈ m, y ≠ x := fun y hy heq => hx (heq ▸ hy)
  refine h.congr (fun y hy => ?_) fun y hy => Function.update_of_ne (hne y hy) ..
  simp only [Handles.chain]
  rw [store_of_ne, Function.update_of_ne (hne y hy)]
  intro heq
  rw [hhead] at heq
  exact hdisj y hy (List.mem_of_head? heq)

/-! Adding an element. -/

theorem appendItem_ordered {h : Hash} {items : List ℕ} (ho : Ordered h items) {x : ℕ}
    (hx : x ∉ items) (key : UInt32) :
    ∃ h', appendItem h x key = some h' ∧ Ordered h' (items ++ [x]) := by
  cases hhead : h.head with
  | none =>
    have hnil : items = [] := List.head?_eq_none_iff.1 (ho.head.symm.trans hhead)
    subst hnil
    simp only [appendItem, hhead]
    refine ⟨_, rfl, rfl, ?_, fun _ => rfl, fun _ => rfl⟩
    exact .single (Function.update_self ..) (Function.update_self ..)
  | some first =>
    have hne : items ≠ [] := by
      rintro rfl
      rw [ho.head] at hhead
      cases hhead
    obtain ⟨last, hlast⟩ := Option.ne_none_iff_exists'.1 (mt List.getLast?_eq_none_iff.1 hne)
    have htail := (ho.tail hne).trans hlast
    have hlinked := ho.linked.push_back hx
    rw [hlast] at hlinked
    simp only [appendItem, hhead, htail]
    refine ⟨_, rfl, ?_, hlinked, by simp, fun _ => ?_⟩
    · simp only
      rw [← hhead, ho.head, List.head?_append_of_ne_nil _ hne]
    · simp only
      rw [ho.numItems hne, List.length_append, List.length_singleton, UInt32.ofNat_add]
      rfl

/-- The buckets do not change while the element is appended; a first element finds
them empty. -/
theorem appendItem_chained {h h' : Hash} {items : List ℕ} {chains : ℕ → List ℕ}
    (ho : Ordered h items) (hc : items ≠ [] → Chained hashFcn h items chains) {x : ℕ}
    (hx : x ∉ items) {key : UInt32} (happ : appendItem h x key = some h') :
    Chained hashFcn h' items (if items = [] then fun _ => [] else chains) ∧ h'.hh.key x = key ∧
      ∀ y, y ≠ x → h'.hh.key y = h.hh.key y := by
  have hkeys : h'.hh.key = Function.update h.hh.key x key := by
    unfold appendItem at happ
    split at happ
    · obtain rfl := Option.some.inj happ
      rfl
    · split at happ
      · cases happ
      · obtain rfl := Option.some.inj happ
        rfl
  refine ⟨?_, by rw [hkeys, Function.update_self],
    fun y hy => by rw [hkeys, Function.update_of_ne hy]⟩
  cases hhead : h.head with
  | none =>
    have hnil : items = [] := List.head?_eq_none_iff.1 (ho.head.symm.trans hhead)
    subst hnil
    simp only [appendItem, hhead] at happ
    obtain rfl := Option.some.inj happ
    rw [if_pos rfl]
    exact ⟨by simp [makeTable], by simp [makeTable], by simp, fun _ => rfl, fun _ => rfl,
      fun _ => .nil, by simp⟩
  | some first =>
    have hne : items ≠ [] := by
      rintro rfl
      rw [ho.head] at hhead
      cases hhead
    obtain ⟨h1, h2, h3, h4, h5, h6, h7⟩ := hc hne
    rw [if_neg hne]
    simp only [appendItem, hhead] at happ
    split at happ
    · cases happ
    · obtain rfl := Option.some.inj happ
      refine ⟨h1, h2, fun y hy => ?_, h4, h5, h6, h7⟩
      have hyx : y ≠ x := fun heq => hx (heq ▸ hy)
      rw [hkeys, Function.update_of_ne hyx]
      exact h3 y hy

theorem enterBkt_ordered {h : Hash} {items : List ℕ} (ho : Ordered h items) (x : ℕ) :
    Ordered (enterBkt hashFcn h x) items := ⟨ho.head, ho.linked, ho.tail, ho.numItems⟩

theorem enterBkt_chained {h : Hash} {items : List ℕ} {chains : ℕ → List ℕ}
    (hc : Chained hashFcn h items chains) {x : ℕ} (hx : x ∉ items) :
    ∃ chains', Chained hashFcn (enterBkt hashFcn h x) (items ++ [x]) chains' := by
  set b := hashToBkt (hashFcn (h.hh.key x)) h.tbl.numBuckets with hb
  have hxi : ∀ i, x ∉ chains i := fun i hmem => hx ((hc.mem i x).1 hmem).1
  have hself : (enterBkt hashFcn h x).bktOf x = b := by
    simp [Hash.bktOf, enterBkt, hb]
  have hother : ∀ y, y ≠ x → (enterBkt hashFcn h x).bktOf y = h.bktOf y := by
    intro y hy
    simp [Hash.bktOf, enterBkt, hy]
  refine ⟨Function.update chains b (x :: chains b), hc.log2, hc.size, fun y hy => ?_, fun i => ?_,
    fun i => ?_, fun i => ?_, fun i y => ?_⟩
  · by_cases hyx : y = x
    · subst hyx
      simp [enterBkt, Handles.chain]
    · have hold : y ∈ items := by simpa [hyx] using hy
      simpa [enterBkt, Handles.chain, hyx] using hc.hashv y hold
  · by_cases hi : i = b
    · subst hi
      simp [enterBkt, ← hb]
    · simpa [enterBkt, ← hb, hi] using hc.hhHead i
  · by_cases hi : i = b
    · subst hi
      simp only [enterBkt, ← hb, Function.update_self, List.length_cons, hc.count,
        UInt32.ofNat_add]
      rfl
    · simpa [enterBkt, ← hb, hi] using hc.count i
  · by_cases hi : i = b
    · subst hi
      rw [Function.update_self]
      exact chain_linked (hc.linked _) (hc.hhHead _) (hxi _)
    · rw [Function.update_of_ne hi]
      refine chain_other (hc.linked i) (hc.hhHead b) (hxi i) fun y hy hyb => hi ?_
      rw [← ((hc.mem i y).1 hy).2, ((hc.mem b y).1 hyb).2]
  · by_cases hyx : y = x
    · subst hyx
      rw [hself]
      by_cases hi : i = b
      · subst hi
        simp
      · rw [Function.update_of_ne hi]
        exact iff_of_false (hxi i) fun hmem => hi hmem.2.symm
    · rw [hother y hyx]
      by_cases hi : i = b
      · subst hi
        simp [hyx, hc.mem]
      · simp [hi, hyx, hc.mem]

/-! Doubling the number of buckets. -/

/-- The chain of bucket `i` once the elements of `done` have been moved: each goes in
front of those before it. -/
def moved (hashv : ℕ → UInt32) (numBkts : UInt32) (done : List ℕ) (i : ℕ) : List ℕ :=
  (done.filter fun x => hashToBkt (hashv x) numBkts = i).reverse

theorem moved_snoc (hashv : ℕ → UInt32) (numBkts : UInt32) (done : List ℕ) (x i : ℕ) :
    moved hashv numBkts (done ++ [x]) i =
      if hashToBkt (hashv x) numBkts = i then x :: moved hashv numBkts done i
      else moved hashv numBkts done i := by
  unfold moved
  rw [List.filter_append, List.reverse_append]
  by_cases h : hashToBkt (hashv x) numBkts = i <;> simp [h]

theorem mem_moved {hashv : ℕ → UInt32} {numBkts : UInt32} {done : List ℕ} {x i : ℕ} :
    x ∈ moved hashv numBkts done i ↔ x ∈ done ∧ hashToBkt (hashv x) numBkts = i := by
  simp [moved]

/-- The loops of the expansion, after the elements of `done`: the old links of all other
elements are still there. -/
structure Moving (h : Hash) (numBkts : UInt32) (e : Expansion) (done : List ℕ) : Prop where
  hhHead : ∀ i, (e.buckets i).hhHead = (moved h.hh.hashv numBkts done i).head?
  count : ∀ i, (e.buckets i).count = UInt32.ofNat (moved h.hh.hashv numBkts done i).length
  linked : ∀ i, Linked e.hh.hhPrev e.hh.hhNext (moved h.hh.hashv numBkts done i)
  rest : ∀ x, x ∉ done → e.hh.hhNext x = h.hh.hhNext x
  prev : e.hh.prev = h.hh.prev
  next : e.hh.next = h.hh.next
  key : e.hh.key = h.hh.key
  hashv : e.hh.hashv = h.hh.hashv

theorem moving_start (h : Hash) (numBkts : UInt32) :
    Moving h numBkts ⟨fun _ => ⟨none, 0, 0⟩, h.hh, 0⟩ [] :=
  ⟨fun _ => rfl, fun _ => rfl, fun _ => .nil, fun _ _ => rfl, rfl, rfl, rfl, rfl⟩

theorem moveElem_moving {h : Hash} {ideal numBkts : UInt32} {e : Expansion} {done : List ℕ}
    (hm : Moving h numBkts e done) (hideal : ideal ≠ 0) {x : ℕ} (hx : x ∉ done) :
    ∃ e', moveElem ideal numBkts e x = some e' ∧ Moving h numBkts e' (done ++ [x]) := by
  set j := hashToBkt (h.hh.hashv x) numBkts with hj
  have hxi : ∀ i, x ∉ moved h.hh.hashv numBkts done i := fun i hmem => hx (mem_moved.1 hmem).1
  -- whatever the multiplier, the element is in front of the chain of its bucket
  have hmoving : ∀ mult nonideal, Moving h numBkts
      { buckets := Function.update e.buckets j ⟨some x, (e.buckets j).count + 1, mult⟩
        hh := e.hh.chain (e.buckets j) x
        nonidealItems := nonideal } (done ++ [x]) := by
    intro mult nonideal
    refine ⟨fun i => ?_, fun i => ?_, fun i => ?_, fun y hy => ?_, hm.prev, hm.next, hm.key, hm.hashv⟩
    · rw [moved_snoc, ← hj]
      by_cases hi : j = i
      · subst hi
        simp
      · dsimp only
        rw [if_neg hi, Function.update_of_ne (Ne.symm hi)]
        exact hm.hhHead i
    · rw [moved_snoc, ← hj]
      by_cases hi : j = i
      · subst hi
        simp only [Function.update_self, if_pos, List.length_cons, hm.count, UInt32.ofNat_add]
        rfl
      · dsimp only
        rw [if_neg hi, Function.update_of_ne (Ne.symm hi)]
        exact hm.count i
    · rw [moved_snoc, ← hj]
      by_cases hi : j = i
      · subst hi
        rw [if_pos rfl]
        exact chain_linked (hm.linked _) (hm.hhHead _) (hxi _)
      · rw [if_neg hi]
        refine chain_other (hm.linked i) (hm.hhHead j) (hxi i) fun y hy hyj => hi ?_
        rw [← (mem_moved.1 hyj).2, (mem_moved.1 hy).2]
    · simp only [List.mem_append, List.mem_singleton, not_or] at hy
      simp only [Handles.chain]
      rw [Function.update_of_ne hy.2, hm.rest y hy.1]
  unfold moveElem
  simp only [hm.hashv, ← hj]
  split_ifs
  · exact ⟨_, rfl, hmoving _ _⟩
  · exact ⟨_, rfl, hmoving _ _⟩

/-- The inner loop moves a whole chain of the old table. -/
theorem moveChain_moving {h : Hash} {ideal numBkts : UInt32} (hideal : ideal ≠ 0) {l : List ℕ} :
    ∀ {p : Option ℕ} {e : Expansion} {done : List ℕ} {rounds : ℕ},
      Seg h.hh.hhPrev h.hh.hhNext p l none → l.Nodup → l.Disjoint done → l.length ≤ rounds →
      Moving h numBkts e done →
      ∃ e', moveChain ideal numBkts rounds l.head? e = some e' ∧ Moving h numBkts e' (done ++ l) := by
  induction l with
  | nil =>
    intro p e done rounds _ _ _ _ hm
    refine ⟨e, ?_, by simpa using hm⟩
    unfold moveChain
    rfl
  | cons x l ih =>
    intro p e done rounds hseg hnodup hdisj hrounds hm
    obtain ⟨-, hnext, hseg⟩ := hseg
    obtain ⟨hxl, hnodup⟩ := List.nodup_cons.1 hnodup
    have hx : x ∉ done := hdisj List.mem_cons_self
    obtain ⟨rounds, rfl⟩ : ∃ r, rounds = r + 1 := ⟨rounds - 1, by simp at hrounds; omega⟩
    obtain ⟨e₁, he₁, hm₁⟩ := moveElem_moving hm hideal hx
    have hdisj₁ : l.Disjoint (done ++ [x]) := by
      intro y hy hy'
      rcases List.mem_append.1 hy' with hy' | hy'
      · exact hdisj (List.mem_cons_of_mem x hy) hy'
      · exact hxl (List.mem_singleton.1 hy' ▸ hy)
    obtain ⟨e', he', hm'⟩ := ih hseg hnodup hdisj₁ (by simpa using hrounds) hm₁
    refine ⟨e', ?_, by simpa using hm'⟩
    have hnxt : e.hh.hhNext x = l.head? := by rw [hm.rest x hx, hnext, Option.or_none]
    simp only [List.head?_cons, moveChain, he₁, hnxt]
    exact he'

/-- The elements of the first `n` buckets. -/
def firstBuckets (chains : ℕ → List ℕ) (n : ℕ) : List ℕ := (List.range n).flatMap chains

theorem firstBuckets_succ (chains : ℕ → List ℕ) (n : ℕ) :
    firstBuckets chains (n + 1) = firstBuckets chains n ++ chains n := by
  simp [firstBuckets, List.range_succ]

theorem Chained.mem_first {h : Hash} {items : List ℕ} {chains : ℕ → List ℕ}
    (hc : Chained hashFcn h items chains) {n x : ℕ} :
    x ∈ firstBuckets chains n ↔ x ∈ items ∧ h.bktOf x < n := by
  simp only [firstBuckets, List.mem_flatMap, List.mem_range, hc.mem]
  constructor
  · rintro ⟨i, hi, hx, rfl⟩
    exact ⟨hx, hi⟩
  · rintro ⟨hx, hlt⟩
    exact ⟨_, hlt, hx, rfl⟩

theorem Chained.chain_subperm {h : Hash} {items : List ℕ} {chains : ℕ → List ℕ}
    (hc : Chained hashFcn h items chains) (i : ℕ) : (chains i).length ≤ items.length :=
  (List.subperm_of_subset (hc.linked i).nodup fun x hx => ((hc.mem i x).1 hx).1).length_le

theorem moveBuckets_moving {h : Hash} {items : List ℕ} {chains : ℕ → List ℕ}
    (hc : Chained hashFcn h items chains) (hlen : h.tbl.numItems.toNat = items.length)
    (hideal : idealLen h.tbl ≠ 0) :
    ∃ e, moveBuckets h.tbl h.hh = some e ∧
      Moving h (h.tbl.numBuckets * 2) e (firstBuckets chains h.tbl.numBuckets.toNat) := by
  unfold moveBuckets
  generalize h.tbl.numBuckets.toNat = n
  induction n with
  | zero => exact ⟨_, rfl, moving_start h _⟩
  | succ n ih =>
    obtain ⟨e, he, hm⟩ := ih
    have hdisj : (chains n).Disjoint (firstBuckets chains n) := by
      intro x hx hx'
      have hlt := (hc.mem_first.1 hx').2
      rw [((hc.mem n x).1 hx).2] at hlt
      exact Nat.lt_irrefl n hlt
    have hrounds : (chains n).length ≤ h.tbl.numItems.toNat := by
      rw [hlen]
      exact hc.chain_subperm n
    obtain ⟨e', he', hm'⟩ :=
      moveChain_moving hideal (hc.linked n).seg (hc.linked n).nodup hdisj hrounds hm
    refine ⟨e', ?_, by rw [firstBuckets_succ]; exact hm'⟩
    rw [List.range_succ, List.foldlM_append, he]
    simp only [Option.bind_eq_bind, Option.bind_some, List.foldlM_cons, List.foldlM_nil, hc.hhHead,
      he', Option.pure_def]

/-- A table with elements has an ideal chain length. -/
theorem idealLen_ne_zero {t : HashTable} (hlog : t.log2NumBuckets.toNat < 31)
    (hsize : t.numBuckets.toNat = 2 ^ t.log2NumBuckets.toNat) (hitems : t.numItems ≠ 0) :
    idealLen t ≠ 0 := by
  have hpow : 2 ^ (t.log2NumBuckets.toNat + 1) < 2 ^ 32 :=
    Nat.pow_lt_pow_right (by norm_num) (by omega)
  have hdouble : (t.numBuckets * 2).toNat = 2 ^ (t.log2NumBuckets.toNat + 1) := by
    rw [UInt32.toNat_mul, hsize, pow_succ]
    exact Nat.mod_eq_of_lt (by rw [← pow_succ]; exact hpow)
  have hmask : (t.numItems &&& (t.numBuckets * 2 - 1)).toNat =
      t.numItems.toNat % 2 ^ (t.log2NumBuckets.toNat + 1) := by
    rw [← hdouble]
    exact hashToBkt_eq hdouble
  have hshift : (t.numItems >>> (t.log2NumBuckets + 1)).toNat =
      t.numItems.toNat / 2 ^ (t.log2NumBuckets.toNat + 1) := by
    have hlog' : (t.log2NumBuckets + 1).toNat = t.log2NumBuckets.toNat + 1 := by
      rw [UInt32.toNat_add]
      exact Nat.mod_eq_of_lt (by simp; omega)
    rw [UInt32.toNat_shiftRight, hlog', Nat.mod_eq_of_lt (by omega), Nat.shiftRight_eq_div_pow]
  have hpos : 0 < t.numItems.toNat := Nat.pos_of_ne_zero fun h => hitems (UInt32.toNat_inj.1 h)
  have hlt := t.numItems.toNat_lt
  intro hzero
  have hsum := congrArg UInt32.toNat hzero
  unfold idealLen at hsum
  rw [UInt32.toNat_add, hshift] at hsum
  have hdiv : t.numItems.toNat / 2 ^ (t.log2NumBuckets.toNat + 1) ≤ t.numItems.toNat / 2 :=
    Nat.div_le_div_left (by rw [pow_succ]; have := Nat.two_pow_pos t.log2NumBuckets.toNat; omega)
      (by norm_num)
  split_ifs at hsum with hrem
  · simp at hsum
    omega
  · have hrem' : t.numItems.toNat % 2 ^ (t.log2NumBuckets.toNat + 1) = 0 := by
      rw [← hmask, not_not.1 hrem]
      rfl
    have hself := Nat.div_add_mod t.numItems.toNat (2 ^ (t.log2NumBuckets.toNat + 1))
    simp at hsum
    rw [hrem'] at hself
    have : t.numItems.toNat / 2 ^ (t.log2NumBuckets.toNat + 1) = 0 := by omega
    rw [this] at hself
    omega

theorem expandBuckets_chained {h : Hash} {items : List ℕ} {chains : ℕ → List ℕ}
    (ho : Ordered h items) (hc : Chained hashFcn h items chains) (hne : items ≠ [])
    (hshort : items.length < 2 ^ 32) (hfew : h.tbl.numBuckets.toNat < 2 ^ 31) :
    ∃ h', expandBuckets h = some h' ∧ Ordered h' items ∧ h'.hh.key = h.hh.key ∧
      ∃ chains', Chained hashFcn h' items chains' := by
  have hlog : h.tbl.log2NumBuckets.toNat < 31 := by
    rw [hc.size] at hfew
    exact (Nat.pow_lt_pow_iff_right (by norm_num)).1 hfew
  have hlen : h.tbl.numItems.toNat = items.length := by
    rw [ho.numItems hne, UInt32.toNat_ofNat']
    exact Nat.mod_eq_of_lt hshort
  have hitems : h.tbl.numItems ≠ 0 := by
    intro hzero
    rw [hzero] at hlen
    exact hne (List.eq_nil_of_length_eq_zero hlen.symm)
  obtain ⟨e, he, hm⟩ := moveBuckets_moving hc hlen (idealLen_ne_zero hlog hc.size hitems)
  have hall : ∀ x, x ∈ firstBuckets chains h.tbl.numBuckets.toNat ↔ x ∈ items := by
    intro x
    rw [hc.mem_first]
    exact and_iff_left (hc.bkt_lt x)
  have hdouble : (h.tbl.numBuckets * 2).toNat = 2 ^ (h.tbl.log2NumBuckets.toNat + 1) := by
    rw [UInt32.toNat_mul, hc.size, pow_succ]
    refine Nat.mod_eq_of_lt ?_
    rw [hc.size] at hfew
    simp
    omega
  have hlog' : (h.tbl.log2NumBuckets + 1).toNat = h.tbl.log2NumBuckets.toNat + 1 := by
    rw [UInt32.toNat_add]
    exact Nat.mod_eq_of_lt (by simp; omega)
  simp only [expandBuckets, he]
  refine ⟨_, rfl, ⟨ho.head, ?_, ho.tail, ho.numItems⟩, hm.key, _,
    ⟨?_, ?_, fun x hx => ?_, hm.hhHead, hm.count, hm.linked, fun i x => ?_⟩⟩
  · simp only [hm.prev, hm.next]
    exact ho.linked
  · simp only [hlog']
    omega
  · simp only [hlog']
    exact hdouble
  · simp only [hm.hashv, hm.key]
    exact hc.hashv x hx
  · rw [mem_moved, hall]
    simp only [Hash.bktOf, hm.hashv]

/-! Deleting an element. -/

theorem ofNat_sub_one {n : ℕ} (h : 0 < n) : UInt32.ofNat n - 1 = UInt32.ofNat (n - 1) := by
  obtain ⟨m, rfl⟩ : ∃ m, n = m + 1 := ⟨n - 1, by omega⟩
  rw [UInt32.ofNat_add]
  exact UInt32.add_sub_cancel ..

theorem hashDelete_ordered {h : Hash} {items : List ℕ} (ho : Ordered h items) {x : ℕ}
    (hx : x ∈ items) : Ordered (hashDelete h x) (items.erase x) := by
  by_cases halone : h.hh.prev x = none ∧ h.hh.next x = none
  · obtain rfl := (ho.linked.alone_iff hx).1 halone
    rw [hashDelete, if_pos halone]
    simp only [List.erase_cons_head]
    exact ⟨rfl, .nil, fun h => absurd rfl h, fun h => absurd rfl h⟩
  · have hne := List.ne_nil_of_mem hx
    rw [hashDelete, if_neg halone]
    refine ⟨?_, ho.linked.erase hx, fun _ => ?_, fun _ => ?_⟩
    · simp only
      rw [ho.linked.head?_erase hx, ho.head]
      exact if_congr (ho.linked.prev_eq_none hx) rfl rfl
    · simp only
      rw [ho.linked.getLast?_erase hx, ho.tail hne]
    · simp only
      rw [ho.numItems hne, ofNat_sub_one (List.length_pos_of_mem hx), List.length_erase_of_mem hx]

theorem hashDelete_hh (h : Hash) (x : ℕ) :
    (hashDelete h x).hh.key = h.hh.key ∧ (hashDelete h x).hh.hashv = h.hh.hashv := by
  unfold hashDelete
  split_ifs <;> exact ⟨rfl, rfl⟩

theorem hashDelete_chained {h : Hash} {items : List ℕ} {chains : ℕ → List ℕ}
    (ho : Ordered h items) (hc : Chained hashFcn h items chains) {x : ℕ} (hx : x ∈ items)
    (hleft : items.erase x ≠ []) :
    Chained hashFcn (hashDelete h x) (items.erase x)
      (Function.update chains (h.bktOf x) ((chains (h.bktOf x)).erase x)) := by
  have halone : ¬(h.hh.prev x = none ∧ h.hh.next x = none) := by
    intro halone
    obtain rfl := (ho.linked.alone_iff hx).1 halone
    simp at hleft
  have hxb : x ∈ chains (h.bktOf x) := (hc.mem _ x).2 ⟨hx, rfl⟩
  have hbkt : ∀ y, (hashDelete h x).bktOf y = h.bktOf y := by
    intro y
    rw [hashDelete, if_neg halone]
    rfl
  have hold := hc.linked (h.bktOf x)
  rw [hashDelete, if_neg halone] at hbkt ⊢
  refine ⟨hc.log2, hc.size, fun y hy => hc.hashv y (List.mem_of_mem_erase hy), fun i => ?_,
    fun i => ?_, fun i => ?_, fun i y => ?_⟩
  · by_cases hi : i = h.bktOf x
    · subst hi
      simp only [Function.update_self]
      rw [hold.head?_erase hxb, hc.hhHead]
    · simp only [Function.update_of_ne hi]
      exact hc.hhHead i
  · by_cases hi : i = h.bktOf x
    · subst hi
      simp only [Function.update_self]
      rw [hc.count, ofNat_sub_one (List.length_pos_of_mem hxb), List.length_erase_of_mem hxb]
    · simp only [Function.update_of_ne hi]
      exact hc.count i
  · by_cases hi : i = h.bktOf x
    · subst hi
      rw [Function.update_self]
      exact hold.erase hxb
    · rw [Function.update_of_ne hi]
      -- the neighbours of the element are in its own chain
      have hapart : ∀ y ∈ chains i, y ∉ chains (h.bktOf x) := by
        intro y hy hyb
        exact hi (((hc.mem i y).1 hy).2.symm.trans ((hc.mem _ y).1 hyb).2)
      refine (hc.linked i).congr (fun y hy => store_of_ne fun heq => ?_)
        fun y hy => store_of_ne fun heq => ?_
      · exact hapart y hy (hold.next_mem hxb heq)
      · exact hapart y hy (hold.prev_mem hxb heq)
  · rw [hbkt, ho.linked.nodup.mem_erase_iff]
    by_cases hi : i = h.bktOf x
    · subst hi
      rw [Function.update_self, hold.nodup.mem_erase_iff, hc.mem, and_assoc]
    · rw [Function.update_of_ne hi, hc.mem]
      refine ⟨fun hy => ⟨⟨fun heq => hi ?_, hy.1⟩, hy.2⟩, fun hy => ⟨hy.1.2, hy.2⟩⟩
      rw [← hy.2, heq]

/-! The whole table. -/

/-- The table holds the elements, in this order. -/
structure Holds (hashFcn : UInt32 → UInt32) (h : Hash) (items : List ℕ) : Prop where
  ordered : Ordered h items
  chained : items ≠ [] → ∃ chains, Chained hashFcn h items chains
  short : items.length < 2 ^ 32

theorem Holds.length {h : Hash} {items : List ℕ} (hh : Holds hashFcn h items) (hne : items ≠ []) :
    h.tbl.numItems.toNat = items.length := by
  rw [hh.ordered.numItems hne, UInt32.toNat_ofNat']
  exact Nat.mod_eq_of_lt hh.short

theorem Holds.head_eq_none {h : Hash} {items : List ℕ} (hh : Holds hashFcn h items) :
    h.head = none ↔ items = [] := by
  rw [hh.ordered.head, List.head?_eq_none_iff]

/-- Room for one more element: the counter and the doubled number of buckets fit their
32 bits. -/
def Hash.Roomy (h : Hash) : Prop :=
  h.head ≠ none → h.tbl.numItems.toNat + 1 < 2 ^ 32 ∧ h.tbl.numBuckets.toNat < 2 ^ 31

theorem appendItem_numBuckets {h h' : Hash} {x : ℕ} {key : UInt32} (h₁ : appendItem h x key = some h') :
    h'.tbl.numBuckets = if h.head = none then 32 else h.tbl.numBuckets := by
  unfold appendItem at h₁
  split at h₁
  · rename_i hhead
    obtain rfl := Option.some.inj h₁
    rw [if_pos hhead]
    rfl
  · rename_i hhead
    rw [if_neg (by simp [hhead])]
    split at h₁
    · cases h₁
    · obtain rfl := Option.some.inj h₁
      rfl

theorem hashAdd_holds {h : Hash} {items : List ℕ} (hh : Holds hashFcn h items) {x : ℕ}
    (hx : x ∉ items) (hroom : h.Roomy) (key : UInt32) :
    ∃ h', hashAdd hashFcn h x key = some h' ∧ Holds hashFcn h' (items ++ [x]) ∧
      h'.hh.key x = key ∧ ∀ y, y ≠ x → h'.hh.key y = h.hh.key y := by
  have hlen : (items ++ [x]).length < 2 ^ 32 := by
    rw [List.length_append, List.length_singleton]
    by_cases hne : items = []
    · subst hne
      decide
    · rw [← hh.length hne]
      exact (hroom (mt hh.head_eq_none.1 hne)).1
  obtain ⟨ho, hchained, -⟩ := hh
  obtain ⟨h₁, happ, ho₁⟩ := appendItem_ordered ho hx key
  obtain ⟨chains, hchains⟩ : ∃ chains, items ≠ [] → Chained hashFcn h items chains := by
    by_cases hne : items = []
    · exact ⟨fun _ => [], fun h => absurd hne h⟩
    · obtain ⟨chains, hc⟩ := hchained hne
      exact ⟨chains, fun _ => hc⟩
  obtain ⟨hc₁, hkey, hkeys⟩ := appendItem_chained ho hchains hx happ
  obtain ⟨chains₂, hc₂⟩ := enterBkt_chained hc₁ hx
  have ho₂ : Ordered (enterBkt hashFcn h₁ x) (items ++ [x]) := enterBkt_ordered ho₁ x
  have hbuckets : (enterBkt hashFcn h₁ x).tbl.numBuckets.toNat < 2 ^ 31 := by
    change h₁.tbl.numBuckets.toNat < 2 ^ 31
    rw [appendItem_numBuckets happ]
    split_ifs with hhead
    · decide
    · exact (hroom hhead).2
  simp only [hashAdd, happ]
  split_ifs with hover
  · obtain ⟨h₃, hexp, ho₃, hkey₃, chains₃, hc₃⟩ :=
      expandBuckets_chained ho₂ hc₂ (by simp) hlen hbuckets
    refine ⟨h₃, hexp, ⟨ho₃, fun _ => ⟨chains₃, hc₃⟩, hlen⟩, ?_⟩
    rw [hkey₃]
    exact ⟨hkey, hkeys⟩
  · exact ⟨_, rfl, ⟨ho₂, fun _ => ⟨chains₂, hc₂⟩, hlen⟩, hkey, hkeys⟩

theorem hashDelete_holds {h : Hash} {items : List ℕ} (hh : Holds hashFcn h items) {x : ℕ}
    (hx : x ∈ items) : Holds hashFcn (hashDelete h x) (items.erase x) := by
  obtain ⟨chains, hc⟩ := hh.chained (List.ne_nil_of_mem hx)
  exact ⟨hashDelete_ordered hh.ordered hx,
    fun hleft => ⟨_, hashDelete_chained hh.ordered hc hx hleft⟩,
    lt_of_le_of_lt List.length_erase_le hh.short⟩

end JudgeServer.Uthash
