import JudgeServer.Server.Lists
import JudgeServer.Uthash.Lookup

/-! `clients_map` as the uthash table that it is. The server's steps run on the table
itself, and what the model keeps instead, one chain that an insertion may reorder, turns
out to be the table read bucket by bucket. -/

namespace JudgeServer

open Transition Uthash

/-- The elements of a table in the order of its buckets. -/
def bucketOrder (h : Hash) : List ℕ :=
  match h.head with
  | none => []
  | some _ => (List.range h.tbl.numBuckets.toNat).flatMap fun i =>
    (visited h.hh.hhNext h.tbl.numItems.toNat (h.tbl.buckets i).hhHead).getD []

/-- The server together with the memory of its `clients_map`. -/
structure HashedServer where
  server : Server
  clientsMap : Hash

namespace HashedServer

/-- The two places that change the map: `HASH_ADD_INT` in `client_loop` and `HASH_DEL` in
`remove_client`. The order that the model's step takes is the one the table then has. -/
def step (s : HashedServer) : Action → Option HashedServer
  | .register t compilers _ =>
    match hashAdd hashJen s.clientsMap s.server.nextClient s.server.lastClientId with
    | none => none
    | some map => (s.server.step (.register t compilers (bucketOrder map))).map fun r => ⟨r, map⟩
  | .unmap t me c =>
    (s.server.step (.unmap t me c)).map fun r => ⟨r, hashDelete s.clientsMap c⟩
  | a => (s.server.step a).map fun r => ⟨r, s.clientsMap⟩

def init (db : Table) (tbl : HashTable) (hh : Handles) : HashedServer := ⟨.init db, .null tbl hh⟩

/-- A client that joins finds room in the table, and the client that a thread deletes is
still in the map. -/
def Proper (s : HashedServer) : Action → Prop
  | .register _ _ _ => s.clientsMap.Roomy
  | .unmap _ _ c => c ∈ s.server.clientsMap
  | _ => True

/-- The chain of the model is the table, and looking a client up in either gives the same. -/
structure Agrees (s : HashedServer) : Prop where
  chain : s.server.clientsMap = bucketOrder s.clientsMap
  find : ∀ id, hashFind hashJen s.clientsMap id = some (s.server.findClient id)
  intact : fsck s.clientsMap = true

end HashedServer

namespace Uthash

variable {hashFcn : UInt32 → UInt32}

theorem Chained.bucketOrder {h : Hash} {items : List ℕ} {chains : ℕ → List ℕ}
    (hh : Holds hashFcn h items) (hc : Chained hashFcn h items chains) (hne : items ≠ []) :
    bucketOrder h = firstBuckets chains h.tbl.numBuckets.toNat := by
  obtain ⟨first, hfirst⟩ := Option.ne_none_iff_exists'.1 (mt hh.head_eq_none.1 hne)
  simp only [JudgeServer.bucketOrder, hfirst, firstBuckets]
  refine List.flatMap_congr fun i _ => ?_
  rw [hc.hhHead, visited_eq (hc.linked i).seg (by rw [hh.length hne]; exact hc.chain_subperm i)]
  rfl

theorem Holds.bucketOrder_perm {h : Hash} {items : List ℕ} (hh : Holds hashFcn h items) :
    (bucketOrder h).Perm items := by
  by_cases hne : items = []
  · simp only [bucketOrder, hh.head_eq_none.2 hne, hne, List.Perm.refl]
  · obtain ⟨chains, hc⟩ := hh.chained hne
    rw [hc.bucketOrder hh hne]
    exact hh.buckets_perm hc

/-- The first buckets contain an element with the key only in the key's own chain. -/
theorem Chained.find_first {h : Hash} {items : List ℕ} {chains : ℕ → List ℕ}
    (hc : Chained hashFcn h items chains) (key : UInt32) (n : ℕ) :
    (firstBuckets chains n).find? (fun x => h.hh.key x = key) =
      if hashToBkt (hashFcn key) h.tbl.numBuckets < n then
        (chains (hashToBkt (hashFcn key) h.tbl.numBuckets)).find? fun x => h.hh.key x = key
      else none := by
  set b := hashToBkt (hashFcn key) h.tbl.numBuckets with hb
  have hother : ∀ i, i ≠ b → (chains i).find? (fun x => h.hh.key x = key) = none := by
    intro i hi
    rw [List.find?_eq_none]
    intro x hx
    obtain ⟨hmem, hbkt⟩ := (hc.mem i x).1 hx
    have hkey : h.hh.key x ≠ key := by
      intro hkey
      apply hi
      rw [← hbkt, Hash.bktOf, hc.hashv x hmem, hkey]
    simpa using hkey
  induction n with
  | zero => rfl
  | succ n ih =>
    rw [firstBuckets_succ, List.find?_append, ih]
    rcases Nat.lt_trichotomy b n with hlt | heq | hgt
    · rw [if_pos hlt, if_pos (Nat.lt_succ_of_lt hlt), hother n hlt.ne', Option.or_none]
    · rw [if_neg heq.not_lt, if_pos (by omega), heq]
      rfl
    · rw [if_neg hgt.not_gt, if_neg (by omega), hother n hgt.ne]
      rfl

/-- Searching one bucket is as good as searching all of them. -/
theorem Holds.find_bucketOrder {h : Hash} {items : List ℕ} (hh : Holds hashFcn h items)
    (key : UInt32) :
    hashFind hashFcn h key = some ((bucketOrder h).find? fun x => h.hh.key x = key) := by
  by_cases hne : items = []
  · simp only [hashFind, bucketOrder, hh.head_eq_none.2 hne, List.find?_nil]
  · obtain ⟨chains, hc⟩ := hh.chained hne
    obtain ⟨first, hfirst⟩ := Option.ne_none_iff_exists'.1 (mt hh.head_eq_none.1 hne)
    have hlt : hashToBkt (hashFcn key) h.tbl.numBuckets < h.tbl.numBuckets.toNat := by
      rw [hashToBkt_eq hc.size]
      exact Nat.mod_lt _ (by rw [hc.size]; exact Nat.two_pow_pos _)
    rw [hc.bucketOrder hh hne, hc.find_first, if_pos hlt]
    simp only [hashFind, hfirst, hc.hhHead]
    refine findInBkt_eq (hc.linked _).seg ?_
    rw [hh.length hne]
    exact hc.chain_subperm _

/-- A deletion takes the element out of the order of the buckets and moves no other. -/
theorem Holds.bucketOrder_delete {h : Hash} {items : List ℕ} (hh : Holds hashFcn h items) {x : ℕ}
    (hx : x ∈ items) : bucketOrder (hashDelete h x) = (bucketOrder h).filter (· ≠ x) := by
  have hne := List.ne_nil_of_mem hx
  obtain ⟨chains, hc⟩ := hh.chained hne
  have hdel := hashDelete_holds hh hx
  by_cases hleft : items.erase x = []
  · have honly : ∀ y ∈ bucketOrder h, y = x := by
      intro y hy
      by_contra hyx
      have hmem := (List.mem_erase_of_ne hyx).2 (hh.bucketOrder_perm.mem_iff.1 hy)
      rw [hleft] at hmem
      cases hmem
    rw [List.filter_eq_nil_iff.2 fun y hy => by simpa using honly y hy]
    simp only [bucketOrder, hdel.head_eq_none.2 hleft]
  · have hc' := hashDelete_chained hh.ordered hc hx hleft
    have hsize : (hashDelete h x).tbl.numBuckets = h.tbl.numBuckets := by
      unfold hashDelete
      split_ifs <;> rfl
    rw [hc'.bucketOrder hdel hleft, hsize, hc.bucketOrder hh hne, firstBuckets, firstBuckets,
      List.filter_flatMap]
    refine List.flatMap_congr fun i _ => ?_
    by_cases hi : i = h.bktOf x
    · subst hi
      rw [Function.update_self, (hc.linked _).nodup.erase_eq_filter]
      exact List.filter_congr fun y _ => by rw [Bool.eq_iff_iff]; simp
    · rw [Function.update_of_ne hi]
      refine (List.filter_eq_self.2 fun y hy => ?_).symm
      have hyx : y ≠ x := by
        rintro rfl
        exact hi ((hc.mem i y).1 hy).2.symm
      simpa using hyx

end Uthash

/-- A registration without the order that the environment would have chosen. -/
def Action.orderless : Action → Action
  | .register t compilers _ => .register t compilers []
  | a => a

namespace HashedServer

/-- The table holds what the model's chain lists, in the order of the buckets, and the ids
that it compares are those of the clients. -/
structure Faithful (s : HashedServer) : Prop where
  guarded : Guarded s.server
  holds : ∃ items, Holds hashJen s.clientsMap items
  chain : s.server.clientsMap = bucketOrder s.clientsMap
  keys : ∀ c ∈ s.server.clientsMap, s.clientsMap.hh.key c = (s.server.clients c).id

theorem faithful_init (db : Table) (tbl : HashTable) (hh : Handles) : Faithful (init db tbl hh) where
  guarded := guarded_init db
  holds := ⟨[], holds_null tbl hh⟩
  chain := rfl
  keys := by simp [init, Server.init]

namespace Faithful

variable {s s' : HashedServer}

theorem agrees (h : Faithful s) : Agrees s := by
  obtain ⟨items, hh⟩ := h.holds
  refine ⟨h.chain, fun id => ?_, hh.fsck⟩
  rw [hh.find_bucketOrder, Server.findClient, ← h.chain]
  congr 1
  exact List.find?_congr fun c hc => by rw [h.keys c hc]

/-- A new client is put into the table without an error, and the order of the buckets is
one that the model's step may take. -/
theorem hashAdd (h : Faithful s) (hroom : s.clientsMap.Roomy) :
    ∃ map, hashAdd hashJen s.clientsMap s.server.nextClient s.server.lastClientId = some map ∧
      (∃ items, Holds hashJen map items) ∧
      (bucketOrder map).Perm (s.server.nextClient :: s.server.clientsMap) ∧
      map.hh.key s.server.nextClient = s.server.lastClientId ∧
      ∀ c ∈ s.server.clientsMap, map.hh.key c = s.clientsMap.hh.key c := by
  obtain ⟨items, hh⟩ := h.holds
  have hperm : items.Perm s.server.clientsMap := by
    rw [h.chain]
    exact hh.bucketOrder_perm.symm
  have hnew : s.server.nextClient ∉ s.server.clientsMap := fun hmem =>
    Nat.lt_irrefl _ (h.guarded.known _ hmem)
  have hfresh : s.server.nextClient ∉ items := fun hmem => hnew (hperm.mem_iff.1 hmem)
  obtain ⟨map, hadd, hmap, hkey, hkeys⟩ := hashAdd_holds hh hfresh hroom s.server.lastClientId
  refine ⟨map, hadd, ⟨_, hmap⟩, ?_, hkey, fun c hc => hkeys c fun heq => hnew (heq ▸ hc)⟩
  exact hmap.bucketOrder_perm.trans ((List.perm_append_singleton _ _).trans (hperm.cons _))

/-- What remains of a deletion. -/
theorem hashDelete (h : Faithful s) {c : ClientRef} (hc : c ∈ s.server.clientsMap) :
    (∃ items, Holds hashJen (hashDelete s.clientsMap c) items) ∧
      bucketOrder (hashDelete s.clientsMap c) = s.server.clientsMap.filter (· ≠ c) := by
  obtain ⟨items, hh⟩ := h.holds
  rw [h.chain] at hc ⊢
  have hitems := hh.bucketOrder_perm.mem_iff.1 hc
  exact ⟨⟨_, hashDelete_holds hh hitems⟩, hh.bucketOrder_delete hitems⟩

theorem keys_step (h : Faithful s) {a : Action} {r : Server} (hs : s.server.step a = some r)
    {c : ClientRef} (hc : c ∈ s.server.clientsMap) : s.clientsMap.hh.key c = (r.clients c).id :=
  (h.keys c hc).trans (id_step hs (h.guarded.known c hc)).symm

/-- A step that leaves `clients_map` alone. -/
theorem frame (h : Faithful s) {a : Action} {r : Server} (hs : s.server.step a = some r)
    (hmap : r.clientsMap = s.server.clientsMap) : Faithful ⟨r, s.clientsMap⟩ where
  guarded := step_guarded h.guarded hs
  holds := h.holds
  chain := hmap.trans h.chain
  keys _ hc := h.keys_step hs (hmap ▸ hc)

/-- The step is one of the model's, but for the order, and the table follows it. -/
theorem step (h : Faithful s) {a : Action} (hs : s.step a = some s') (hproper : s.Proper a) :
    Faithful s' ∧ ∃ b, b.orderless = a.orderless ∧ s.server.step b = some s'.server := by
  cases a with
  | register t compilers order =>
    obtain ⟨map, hadd, hholds, hperm, hkey, hkeys⟩ := h.hashAdd hproper
    simp only [HashedServer.step, hadd, Option.map_eq_some_iff] at hs
    obtain ⟨r, hr, rfl⟩ := hs
    have hchain : r.clientsMap = bucketOrder map := by
      obtain ⟨-, rfl⟩ := Server.step_some.1 hr
      exact if_pos (List.isPerm_iff.2 hperm)
    refine ⟨⟨step_guarded h.guarded hr, hholds, hchain, ?_⟩,
      .register t compilers (bucketOrder map), rfl, hr⟩
    · intro c hc
      rw [hchain, hperm.mem_iff] at hc
      rcases List.mem_cons.1 hc with rfl | hc
      · obtain ⟨-, rfl⟩ := Server.step_some.1 hr
        simp only [hkey, Server.next, Function.update_self, clientCreate]
      · exact (hkeys c hc).trans (h.keys_step hr hc)
  | unmap t me c =>
    obtain ⟨r, hr, rfl⟩ := Option.map_eq_some_iff.1 hs
    obtain ⟨hholds, horder⟩ := h.hashDelete hproper
    obtain ⟨hen, hnext⟩ := Server.step_some.1 hr
    have hchain : r.clientsMap = s.server.clientsMap.filter (· ≠ c) := by
      rw [← hnext]
      rfl
    refine ⟨⟨step_guarded h.guarded hr, hholds, hchain.trans horder.symm, fun d hd => ?_⟩, _, rfl, hr⟩
    rw [hchain] at hd
    rw [(hashDelete_hh s.clientsMap c).1]
    exact h.keys_step hr (List.mem_of_mem_filter hd)
  | _ =>
    simp only [HashedServer.step, Option.map_eq_some_iff] at hs
    obtain ⟨r, hr, rfl⟩ := hs
    exact ⟨h.frame hr (clientsMap_same hr (by simp) (by simp)), _, rfl, hr⟩

/-- The table never stands in the way of a step that the model can take. -/
theorem progress (h : Faithful s) {a : Action} {r : Server} (hs : s.server.step a = some r)
    (hproper : s.Proper a) : ∃ s', s.step a = some s' := by
  cases a with
  | register t compilers order =>
    obtain ⟨map, hadd, -⟩ := h.hashAdd hproper
    obtain ⟨hen, -⟩ := Server.step_some.1 hs
    have hen : s.server.enabled (.register t compilers (bucketOrder map)) := hen
    refine ⟨⟨s.server.next (.register t compilers (bucketOrder map)), map⟩, ?_⟩
    simp only [HashedServer.step, hadd, Server.step_some.2 ⟨hen, rfl⟩, Option.map_some]
  | _ => simp only [HashedServer.step, hs, Option.map_some, Option.some.injEq, exists_eq']

end Faithful

/-- With the memory of the table in place of its abstraction the server makes the runs of
the model and no others: the table agrees with the chain in every state, each run is one
of the model, and no step of the model is lost. -/
structure Refines (db : Table) (as : List Action) (s : HashedServer) : Prop where
  agrees : Agrees s
  simulates : ∃ bs, bs.map Action.orderless = as.map Action.orderless ∧ Reaches db bs s.server
  progresses : ∀ a, (s.server.step a).isSome → s.Proper a → (s.step a).isSome

theorem map_refines (db : Table) (tbl : HashTable) (hh : Handles) (as : List Action)
    (s : HashedServer) (hrun : Run step (init db tbl hh) as s)
    (hproper : Along step (init db tbl hh) as Proper) : Refines db as s := by
  suffices hboth : Faithful s ∧
      ∃ bs, bs.map Action.orderless = as.map Action.orderless ∧ Reaches db bs s.server by
    obtain ⟨hf, hsim⟩ := hboth
    refine ⟨hf.agrees, hsim, fun a ha hp => ?_⟩
    obtain ⟨r, hr⟩ := Option.isSome_iff_exists.1 ha
    exact Option.isSome_iff_exists.2 (hf.progress hr hp)
  induction hrun with
  | nil => exact ⟨faithful_init db tbl hh, [], rfl, Run.nil⟩
  | @snoc as a s s' hr hs ih =>
    obtain ⟨hleft, ha⟩ := (along_snoc hr).1 hproper
    obtain ⟨hf, bs, hbs, hreach⟩ := ih hleft
    obtain ⟨hf', b, hb, hstep⟩ := hf.step hs ha
    refine ⟨hf', bs ++ [b], ?_, hreach.snoc hstep⟩
    rw [List.map_append, List.map_append, hbs, List.map_singleton, List.map_singleton, hb]

/-- Two clients join, and the connection of the first is reset. -/
def joinedAndLeft : List Action :=
  joining 0 0 ++ joining 1 1 ++ resetting 0 0 ++ unmapping 0 0 0

theorem map_refines_left : ∃ s, Run step (init oneNewRow (makeTable 0) zeros) joinedAndLeft s ∧
    s.server.clientsMap = [1] ∧ Refines oneNewRow joinedAndLeft s := by
  refine ⟨_, Run.iff_foldlM.2 rfl, rfl, ?_⟩
  refine map_refines oneNewRow (makeTable 0) zeros joinedAndLeft _ (Run.iff_foldlM.2 rfl) ?_
  refine (along_cons rfl).2 ⟨trivial, ?_⟩
  refine (along_cons rfl).2 ⟨fun h => absurd rfl h, ?_⟩
  refine (along_cons rfl).2 ⟨trivial, ?_⟩
  refine (along_cons rfl).2 ⟨trivial, ?_⟩
  refine (along_cons rfl).2 ⟨fun _ => ⟨by decide, by decide⟩, ?_⟩
  refine (along_cons rfl).2 ⟨trivial, ?_⟩
  refine (along_cons rfl).2 ⟨trivial, ?_⟩
  refine (along_cons rfl).2 ⟨trivial, ?_⟩
  refine (along_cons rfl).2 ⟨trivial, ?_⟩
  refine (along_cons rfl).2 ⟨trivial, ?_⟩
  refine (along_cons rfl).2 ⟨trivial, ?_⟩
  refine (along_cons rfl).2 ⟨?_, along_nil⟩
  exact (by decide : 0 ∈ [0, 1])

end HashedServer

end JudgeServer
