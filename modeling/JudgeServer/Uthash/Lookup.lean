import JudgeServer.Library.Run
import JudgeServer.Uthash.Chains

/-! uthash as its users see it: after any sequence of additions and deletions the table
passes its own integrity check, lists its elements in the order of their addition, and
finds an element with a key whenever it has one. -/

namespace JudgeServer.Uthash

open Links Transition

variable {hashFcn : UInt32 → UInt32}

/-! The walks along a list. -/

theorem findInBkt_eq {hh : Handles} {prev : ℕ → Option ℕ} {key : UInt32} {l : List ℕ} :
    ∀ {p : Option ℕ} {rounds : ℕ}, Seg prev hh.hhNext p l none → l.length ≤ rounds →
      findInBkt hh key rounds l.head? = some (l.find? fun x => hh.key x = key) := by
  induction l with
  | nil =>
    intro p rounds _ _
    unfold findInBkt
    rfl
  | cons x l ih =>
    intro p rounds hseg hrounds
    obtain ⟨-, hnext, hseg⟩ := hseg
    obtain ⟨rounds, rfl⟩ : ∃ r, rounds = r + 1 := ⟨rounds - 1, by simp at hrounds; omega⟩
    rw [List.head?_cons, findInBkt, List.find?_cons]
    by_cases hkey : hh.key x = key
    · simp [hkey]
    · rw [if_neg hkey, hnext, Option.or_none, ih hseg (by simpa using hrounds)]
      simp [hkey]

theorem fsckList_eq {prev next : ℕ → Option ℕ} {l : List ℕ} :
    ∀ {p : Option ℕ} {rounds : ℕ} {count : UInt32}, Seg prev next p l none → l.length ≤ rounds →
      fsckList prev next rounds p l.head? count = some (count + UInt32.ofNat l.length) := by
  induction l with
  | nil =>
    intro p rounds count _ _
    unfold fsckList
    simp
  | cons x l ih =>
    intro p rounds count hseg hrounds
    obtain ⟨hprev, hnext, hseg⟩ := hseg
    obtain ⟨rounds, rfl⟩ : ∃ r, rounds = r + 1 := ⟨rounds - 1, by simp at hrounds; omega⟩
    rw [List.head?_cons, fsckList, if_neg (not_not.2 hprev), hnext, Option.or_none,
      ih hseg (by simpa using hrounds), List.length_cons, UInt32.ofNat_add]
    congr 1
    rw [UInt32.add_assoc, UInt32.add_comm 1]
    rfl

theorem visited_eq {prev next : ℕ → Option ℕ} {l : List ℕ} :
    ∀ {p : Option ℕ} {rounds : ℕ}, Seg prev next p l none → l.length ≤ rounds →
      visited next rounds l.head? = some l := by
  induction l with
  | nil =>
    intro p rounds _ _
    unfold visited
    rfl
  | cons x l ih =>
    intro p rounds hseg hrounds
    obtain ⟨-, hnext, hseg⟩ := hseg
    obtain ⟨rounds, rfl⟩ : ∃ r, rounds = r + 1 := ⟨rounds - 1, by simp at hrounds; omega⟩
    rw [List.head?_cons, visited, hnext, Option.or_none, ih hseg (by simpa using hrounds)]
    rfl

/-! What holds of a table. -/

namespace Holds

variable {h : Hash} {items : List ℕ}

/-- The elements are visited in the order of their addition. -/
theorem visits (hh : Holds hashFcn h items) :
    visited h.hh.next h.tbl.numItems.toNat h.head = some items := by
  by_cases hne : items = []
  · rw [hh.head_eq_none.2 hne, hne]
    unfold visited
    rfl
  · rw [hh.ordered.head]
    exact visited_eq hh.ordered.linked.seg (hh.length hne).ge

/-- A look-up ends with an element that has the key, unless there is none. -/
theorem find (hh : Holds hashFcn h items) (key : UInt32) :
    ∃ r, hashFind hashFcn h key = some r ∧ (∀ x, r = some x → x ∈ items ∧ h.hh.key x = key) ∧
      (r = none → ∀ x ∈ items, h.hh.key x ≠ key) := by
  by_cases hne : items = []
  · subst hne
    refine ⟨none, ?_, by simp, by simp⟩
    simp only [hashFind, hh.head_eq_none.2 rfl]
  · obtain ⟨chains, hc⟩ := hh.chained hne
    obtain ⟨first, hfirst⟩ := Option.ne_none_iff_exists'.1 (mt hh.head_eq_none.1 hne)
    set b := hashToBkt (hashFcn key) h.tbl.numBuckets with hb
    refine ⟨(chains b).find? fun x => h.hh.key x = key, ?_, fun x hx => ?_, fun hnone x hx hkey => ?_⟩
    · simp only [hashFind, hfirst, ← hb, hc.hhHead]
      refine findInBkt_eq (hc.linked b).seg ?_
      rw [hh.length hne]
      exact hc.chain_subperm b
    · refine ⟨((hc.mem b x).1 (List.mem_of_find?_eq_some hx)).1, ?_⟩
      simpa using List.find?_some hx
    · -- an element with the key is in the bucket that was searched
      have hbkt : h.bktOf x = b := by rw [Hash.bktOf, hc.hashv x hx, hkey]
      have hnot := List.find?_eq_none.1 hnone x ((hc.mem b x).2 ⟨hx, hbkt⟩)
      simp [hkey] at hnot

theorem fsckBuckets_eq (hh : Holds hashFcn h items) (hne : items ≠ []) {chains : ℕ → List ℕ}
    (hc : Chained hashFcn h items chains) :
    fsckBuckets h = some (UInt32.ofNat (firstBuckets chains h.tbl.numBuckets.toNat).length) := by
  unfold fsckBuckets
  generalize h.tbl.numBuckets.toNat = n
  induction n with
  | zero => rfl
  | succ n ih =>
    have hrounds : (chains n).length ≤ h.tbl.numItems.toNat := by
      rw [hh.length hne]
      exact hc.chain_subperm n
    have hwalk : fsckList h.hh.hhPrev h.hh.hhNext h.tbl.numItems.toNat none (chains n).head? 0 =
        some (0 + UInt32.ofNat (chains n).length) := fsckList_eq (hc.linked n).seg hrounds
    rw [UInt32.zero_add] at hwalk
    rw [List.range_succ, List.foldlM_append, ih, firstBuckets_succ, List.length_append,
      UInt32.ofNat_add]
    simp only [Option.bind_eq_bind, Option.bind_some, List.foldlM_cons, List.foldlM_nil, hc.hhHead,
      hwalk, hc.count, ne_eq, not_true_eq_false, if_false, Option.pure_def]

theorem buckets_perm (hh : Holds hashFcn h items) {chains : ℕ → List ℕ}
    (hc : Chained hashFcn h items chains) :
    (firstBuckets chains h.tbl.numBuckets.toNat).Perm items := by
  refine (List.perm_ext_iff_of_nodup ?_ hh.ordered.linked.nodup).2 fun x => ?_
  · refine List.nodup_flatMap.2 ⟨fun i _ => (hc.linked i).nodup, List.nodup_range.imp ?_⟩
    intro i j hij x hi hj
    exact hij (((hc.mem i x).1 hi).2.symm.trans ((hc.mem j x).1 hj).2)
  · rw [hc.mem_first]
    exact and_iff_left (hc.bkt_lt x)

/-- The table passes `HASH_FSCK`. -/
theorem fsck (hh : Holds hashFcn h items) : fsck h = true := by
  by_cases hne : items = []
  · simp only [Uthash.fsck, hh.head_eq_none.2 hne]
  · obtain ⟨chains, hc⟩ := hh.chained hne
    obtain ⟨first, hfirst⟩ := Option.ne_none_iff_exists'.1 (mt hh.head_eq_none.1 hne)
    have horder : fsckList h.hh.prev h.hh.next h.tbl.numItems.toNat none items.head? 0 =
        some (0 + UInt32.ofNat items.length) := fsckList_eq hh.ordered.linked.seg (hh.length hne).ge
    rw [← hh.ordered.head, hfirst, UInt32.zero_add, ← hh.ordered.numItems hne] at horder
    simp only [Uthash.fsck, hfirst, horder, hh.fsckBuckets_eq hne hc, (hh.buckets_perm hc).length_eq,
      ← hh.ordered.numItems hne, and_self, decide_true]

end Holds

/-! Runs of additions and deletions. -/

inductive Op
  | add (x : ℕ) (key : UInt32)
  | del (x : ℕ)
  deriving DecidableEq, Repr

/-- The variable is NULL; the memory of table and handles may contain anything. -/
def Hash.null (tbl : HashTable) (hh : Handles) : Hash := ⟨none, tbl, hh⟩

def Hash.step (hashFcn : UInt32 → UInt32) (h : Hash) : Op → Option Hash
  | .add x key => hashAdd hashFcn h x key
  | .del x => some (hashDelete h x)

/-- What the operations mean: a list of elements with their keys. No element is added
twice, and only elements of the table are deleted. -/
def entriesStep (es : List (ℕ × UInt32)) : Op → Option (List (ℕ × UInt32))
  | .add x key => if x ∈ es.map Prod.fst then none else some (es ++ [(x, key)])
  | .del x => if x ∈ es.map Prod.fst then some (es.filter fun e => e.1 ≠ x) else none

/-- An addition finds room for its element. -/
def Fits (h : Hash) : Op → Prop
  | .add _ _ => h.Roomy
  | .del _ => True

/-- The table and the entries it stands for. -/
structure Stands (hashFcn : UInt32 → UInt32) (h : Hash) (es : List (ℕ × UInt32)) : Prop where
  holds : Holds hashFcn h (es.map Prod.fst)
  keys : ∀ e ∈ es, h.hh.key e.1 = e.2

theorem holds_null (tbl : HashTable) (hh : Handles) : Holds hashFcn (.null tbl hh) [] where
  ordered := ⟨rfl, .nil, fun h => absurd rfl h, fun h => absurd rfl h⟩
  chained h := absurd rfl h
  short := by decide

theorem stands_null (tbl : HashTable) (hh : Handles) : Stands hashFcn (.null tbl hh) [] :=
  ⟨holds_null tbl hh, by simp⟩

/-- Without repetitions the entries left after a deletion are the elements left. -/
theorem map_filter_ne {es : List (ℕ × UInt32)} (h : (es.map Prod.fst).Nodup) (x : ℕ) :
    (es.filter fun e => e.1 ≠ x).map Prod.fst = (es.map Prod.fst).erase x := by
  rw [h.erase_eq_filter, List.filter_map]
  congr 1
  refine List.filter_congr fun e _ => ?_
  rw [Bool.eq_iff_iff]
  simp

theorem Stands.step {h : Hash} {es es' : List (ℕ × UInt32)} {op : Op} (hs : Stands hashFcn h es)
    (hop : entriesStep es op = some es') (hfits : Fits h op) :
    ∃ h', h.step hashFcn op = some h' ∧ Stands hashFcn h' es' := by
  cases op with
  | add x key =>
    simp only [entriesStep] at hop
    split_ifs at hop with hx
    obtain rfl := Option.some.inj hop
    obtain ⟨h', hadd, hholds, hkey, hkeys⟩ := hashAdd_holds hs.holds hx hfits key
    refine ⟨h', hadd, by simpa using hholds, fun e he => ?_⟩
    rcases List.mem_append.1 he with he | he
    · have hne : e.1 ≠ x := fun heq => hx (heq ▸ List.mem_map_of_mem he)
      rw [hkeys e.1 hne, hs.keys e he]
    · rw [List.mem_singleton.1 he]
      exact hkey
  | del x =>
    simp only [entriesStep] at hop
    split_ifs at hop with hx
    obtain rfl := Option.some.inj hop
    refine ⟨hashDelete h x, rfl, ?_, fun e he => ?_⟩
    · rw [map_filter_ne hs.holds.ordered.linked.nodup]
      exact hashDelete_holds hs.holds hx
    · rw [(hashDelete_hh h x).1]
      exact hs.keys e (List.mem_of_mem_filter he)

/-- While every addition finds room, no operation reads through NULL, divides by zero or
runs along a chain without end, and the table stands for the entries. -/
theorem stands_run {es : List (ℕ × UInt32)} {ops : List Op} (tbl : HashTable) (hh : Handles)
    (hrun : Run entriesStep [] ops es)
    (hfits : Along (Hash.step hashFcn) (.null tbl hh) ops Fits) :
    ∃ h, Run (Hash.step hashFcn) (.null tbl hh) ops h ∧ Stands hashFcn h es := by
  induction hrun with
  | nil => exact ⟨_, Run.nil, stands_null tbl hh⟩
  | @snoc ops op es es' _ hop ih =>
    obtain ⟨h, hr, hs⟩ := ih hfits.left
    obtain ⟨h', hstep, hs'⟩ := hs.step hop ((along_snoc hr).1 hfits).2
    exact ⟨h', hr.snoc hstep, hs'⟩

/-- The table is intact, and its users see the entries. -/
structure Sound (hashFcn : UInt32 → UInt32) (h : Hash) (es : List (ℕ × UInt32)) : Prop where
  intact : fsck h = true
  order : visited h.hh.next h.tbl.numItems.toNat h.head = some (es.map Prod.fst)
  found : ∀ key, ∃ r, hashFind hashFcn h key = some r ∧ (∀ x, r = some x → (x, key) ∈ es) ∧
    (r = none → ∀ x, (x, key) ∉ es)

theorem Stands.sound {h : Hash} {es : List (ℕ × UInt32)} (hs : Stands hashFcn h es) :
    Sound hashFcn h es where
  intact := hs.holds.fsck
  order := hs.holds.visits
  found key := by
    obtain ⟨r, hr, hsome, hnone⟩ := hs.holds.find key
    refine ⟨r, hr, fun x hx => ?_, fun hn x hx => ?_⟩
    · obtain ⟨hmem, hkey⟩ := hsome x hx
      obtain ⟨e, he, rfl⟩ := List.mem_map.1 hmem
      rw [← hkey, hs.keys e he]
      exact he
    · exact hnone hn x (List.mem_map_of_mem hx) (hs.keys _ hx)

/-- Every sequence of additions and deletions leaves a sound table, whatever the hash
function and however often the buckets were doubled. -/
theorem table_sound (hashFcn : UInt32 → UInt32) (tbl : HashTable) (hh : Handles) (ops : List Op)
    (es : List (ℕ × UInt32)) (hrun : Run entriesStep [] ops es)
    (hfits : Along (Hash.step hashFcn) (.null tbl hh) ops Fits) :
    ∃ h, Run (Hash.step hashFcn) (.null tbl hh) ops h ∧ Sound hashFcn h es := by
  obtain ⟨h, hr, hs⟩ := stands_run tbl hh hrun hfits
  exact ⟨h, hr, hs.sound⟩

/-! How fast a table can grow. -/

theorem expandBuckets_size {h h' : Hash} (hexp : expandBuckets h = some h') :
    h'.tbl.numItems = h.tbl.numItems ∧ h'.tbl.numBuckets = h.tbl.numBuckets * 2 ∧ h'.head = h.head := by
  unfold expandBuckets at hexp
  split at hexp
  · cases hexp
  · obtain rfl := Option.some.inj hexp
    exact ⟨rfl, rfl, rfl⟩

/-- `n` operations after the start. -/
def Hash.Small (h : Hash) (n : ℕ) : Prop :=
  h.head ≠ none → h.tbl.numItems.toNat ≤ n ∧ h.tbl.numBuckets.toNat ≤ 2 ^ (n + 5)

theorem Stands.small {h h' : Hash} {es es' : List (ℕ × UInt32)} {op : Op} {n : ℕ}
    (hs : Stands hashFcn h es) (hs' : Stands hashFcn h' es') (hop : entriesStep es op = some es')
    (hsmall : h.Small n) (hstep : h.step hashFcn op = some h') : h'.Small (n + 1) := by
  have hpow : 2 ^ (n + 5) ≤ 2 ^ (n + 1 + 5) := Nat.pow_le_pow_right (by norm_num) (by omega)
  have hdouble : 2 ^ (n + 1 + 5) = 2 ^ (n + 5) * 2 := by rw [← pow_succ]
  have hbase : 32 ≤ 2 ^ (n + 5) := by
    rw [pow_add]
    have := Nat.two_pow_pos n
    omega
  intro hhead
  have hne' := mt hs'.holds.head_eq_none.2 hhead
  have hlen : es'.length ≤ es.length + 1 := by
    unfold entriesStep at hop
    split at hop <;> split_ifs at hop <;> obtain rfl := Option.some.inj hop
    · simp
    · exact (List.length_filter_le _ _).trans (Nat.le_succ _)
  have hold : es.length ≤ n := by
    by_cases hnil : es = []
    · simp [hnil]
    · have hmap : es.map Prod.fst ≠ [] := by simpa using hnil
      have hcount := (hsmall (mt hs.holds.head_eq_none.1 hmap)).1
      rwa [hs.holds.length hmap, List.length_map] at hcount
  refine ⟨?_, ?_⟩
  · rw [hs'.holds.length hne', List.length_map]
    omega
  cases op with
  | add x key =>
    have hstep : hashAdd hashFcn h x key = some h' := hstep
    unfold hashAdd at hstep
    split at hstep
    · cases hstep
    · rename_i h₁ happ
      have hbuckets : h₁.tbl.numBuckets.toNat ≤ 2 ^ (n + 5) := by
        rw [appendItem_numBuckets happ]
        split_ifs with hnone
        · exact hbase
        · exact (hsmall hnone).2
      dsimp only at hstep
      split_ifs at hstep
      · rw [(expandBuckets_size hstep).2.1, UInt32.toNat_mul]
        refine (Nat.mod_le _ _).trans ?_
        rw [hdouble]
        exact Nat.mul_le_mul_right 2 hbuckets
      · obtain rfl := Option.some.inj hstep
        exact hbuckets.trans hpow
  | del x =>
    obtain rfl := Option.some.inj hstep
    have hsame : (hashDelete h x).tbl.numBuckets = h.tbl.numBuckets := by
      unfold hashDelete
      split_ifs <;> rfl
    have hold : h.head ≠ none := by
      intro hnone
      unfold entriesStep at hop
      rw [List.map_eq_nil_iff.1 (hs.holds.head_eq_none.1 hnone)] at hop
      simp at hop
    rw [hsame]
    exact ((hsmall hold).2).trans hpow

/-- A sequence of up to 25 operations always fits. -/
theorem fits_of_short {es : List (ℕ × UInt32)} {ops : List Op} (tbl : HashTable) (hh : Handles)
    (hrun : Run entriesStep [] ops es) (hlen : ops.length ≤ 25) :
    Along (Hash.step hashFcn) (.null tbl hh) ops Fits := by
  suffices hboth : Along (Hash.step hashFcn) (.null tbl hh) ops Fits ∧
      ∀ h, Run (Hash.step hashFcn) (.null tbl hh) ops h → h.Small ops.length from hboth.1
  induction hrun with
  | nil =>
    refine ⟨along_nil, fun h hr hhead => ?_⟩
    rw [Run.nil_iff.1 hr] at hhead
    exact absurd rfl hhead
  | @snoc ops op es es' hentries hop ih =>
    rw [List.length_append, List.length_singleton] at hlen
    obtain ⟨halong, hsmall⟩ := ih (by omega)
    obtain ⟨h, hr, hs⟩ := stands_run tbl hh hentries halong
    have hfits : Fits h op := by
      cases op with
      | add x key =>
        intro hhead
        obtain ⟨hitems, hbuckets⟩ := hsmall h hr hhead
        have hpow : 2 ^ (ops.length + 5) < 2 ^ 31 := Nat.pow_lt_pow_right (by norm_num) (by omega)
        exact ⟨by omega, by omega⟩
      | del x => exact trivial
    refine ⟨(along_snoc hr).2 ⟨halong, hfits⟩, fun h' hr' => ?_⟩
    obtain ⟨h₁, hr₁, hstep⟩ := Run.snoc_iff.1 hr'
    obtain rfl := hr₁.unique hr
    obtain ⟨h₂, hstep₂, hs₂⟩ := hs.step hop hfits
    rw [hstep] at hstep₂
    obtain rfl := Option.some.inj hstep₂
    rw [List.length_append, List.length_singleton]
    exact hs.small hs₂ hop (hsmall _ hr₁) hstep

def zeros : Handles :=
  ⟨fun _ => none, fun _ => none, fun _ => none, fun _ => none, fun _ => 0, fun _ => 0⟩

/-- Twelve elements with one key fill a bucket beyond its threshold; two of them are
deleted. -/
def fillingOps : List Op := (List.range 12).map (fun x => .add x 7) ++ [.del 3, .del 0]

theorem table_sound_filling :
    ∃ h, Run (Hash.step hashJen) (.null (makeTable 0) zeros) fillingOps h ∧
      Sound hashJen h ([1, 2, 4, 5, 6, 7, 8, 9, 10, 11].map fun x => (x, 7)) := by
  have hrun : Run entriesStep [] fillingOps ([1, 2, 4, 5, 6, 7, 8, 9, 10, 11].map fun x => (x, 7)) :=
    Run.iff_foldlM.2 (by decide)
  exact table_sound hashJen _ _ fillingOps _ hrun (fits_of_short _ _ hrun (by decide))

end JudgeServer.Uthash
