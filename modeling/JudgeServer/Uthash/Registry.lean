import JudgeServer.Uthash.Iterate

/-! `compilers_map` with the lists of its compilers, and the memory of both: compilers and
list entries are allocated when clients register, `remove_client` frees entries, and
`cleanup` frees what is left by way of `compiler_free`. -/

namespace JudgeServer.Uthash

open Transition

variable {hashFcn : UInt32 → UInt32}

/-! What a loop with deletions frees. -/

def iterFrees (gone : ℕ → Bool) (junk : ℕ → Option ℕ) : ℕ → Option ℕ → Option ℕ → Hash → List ℕ
  | _, none, _, _ => []
  | 0, some _, _, _ => []
  | rounds + 1, some el, tmp, h =>
    let h' := iterBody gone junk h el
    (if gone el then [el] else []) ++ iterFrees gone junk rounds tmp (tmp.bind h'.hh.next) h'

/-- The elements that `HASH_ITER` passes to `free`, in order. -/
def frees (gone : ℕ → Bool) (junk : ℕ → Option ℕ) (h : Hash) : List ℕ :=
  iterFrees gone junk h.tbl.numItems.toNat h.head (h.head.bind h.hh.next) h

theorem iterFrees_eq (gone : ℕ → Bool) (junk : ℕ → Option ℕ) {l : List ℕ} :
    ∀ {h : Hash} {kept : List ℕ} {rounds : ℕ}, Holds hashFcn h (kept ++ l) → l.length ≤ rounds →
      iterFrees gone junk rounds l.head? l.tail.head? h = l.filter gone := by
  induction l with
  | nil =>
    intro h kept rounds _ _
    unfold iterFrees
    rfl
  | cons x l ih =>
    intro h kept rounds hh hrounds
    obtain ⟨rounds, rfl⟩ : ∃ r, rounds = r + 1 := ⟨rounds - 1, by simp at hrounds; omega⟩
    obtain ⟨hbody, -⟩ := iterBody_holds gone junk hh
    have hnext := hbody.after
    rw [List.head?_cons, List.tail_cons, iterFrees]
    simp only [hnext]
    rw [ih hbody (by simpa using hrounds), List.filter_cons]
    cases gone x <;> simp

theorem frees_eq {h : Hash} {items : List ℕ} (hh : Holds hashFcn h items) (gone : ℕ → Bool)
    (junk : ℕ → Option ℕ) : frees gone junk h = items.filter gone := by
  by_cases hne : items = []
  · subst hne
    simp only [frees, hh.head_eq_none.2 rfl, Option.bind_none]
    unfold iterFrees
    rfl
  · have hall : Holds hashFcn h ([] ++ items) := hh
    have htmp : h.head.bind h.hh.next = items.tail.head? := by
      rw [hh.ordered.head]
      exact hall.after
    rw [frees, htmp, hh.ordered.head]
    exact iterFrees_eq gone junk hall (hh.length hne).ge

/-! The compilers and their lists. -/

/-- `lists` are the members `clients_list` of the compilers by their addresses. -/
structure Registry where
  compilers : Hash
  lists : ℕ → Hash

/-- The operations with the memory that `malloc` returns and what `free` leaves behind. -/
inductive RegistryOp
  | create (compiler : ℕ) (key : UInt32) (tbl : HashTable) (hh : Handles)
  | addClient (compiler clientId : ℕ) (id : UInt32)
  | unlist (id : UInt32) (junk : ℕ → Option ℕ)

/-- The body of the loop over the compilers in `remove_client`. -/
def unlistLoop (id : UInt32) (junk : ℕ → Option ℕ) :
    List ℕ → (ℕ → Hash) → Option (List ℕ × (ℕ → Hash))
  | [], lists => some ([], lists)
  | compiler :: rest, lists => do
    let gone := fun clid => (lists compiler).hh.key clid = id
    let list ← iter gone junk (lists compiler)
    let (freed, lists') ← unlistLoop id junk rest (Function.update lists compiler list)
    some (frees gone junk (lists compiler) ++ freed, lists')

namespace Registry

/-- An operation, and the entries that it frees. -/
def perform (hashFcn : UInt32 → UInt32) (r : Registry) : RegistryOp → Option (List ℕ × Registry)
  -- HASH_ADD_INT(compilers_map, id, compiler_create(id))
  | .create compiler key tbl hh => do
    let compilers ← hashAdd hashFcn r.compilers compiler key
    some ([], ⟨compilers, Function.update r.lists compiler (.null tbl hh)⟩)
  -- HASH_ADD_INT(compiler->clients_list, id, client_id)
  | .addClient compiler clientId id => do
    let list ← hashAdd hashFcn (r.lists compiler) clientId id
    some ([], { r with lists := Function.update r.lists compiler list })
  | .unlist id junk => do
    let compilers ← visited r.compilers.hh.next r.compilers.tbl.numItems.toNat r.compilers.head
    let (freed, lists) ← unlistLoop id junk compilers r.lists
    some (freed, { r with lists := lists })

def step (hashFcn : UInt32 → UInt32) (r : Registry) (op : RegistryOp) : Option Registry :=
  (r.perform hashFcn op).map Prod.snd

/-- The entries that an operation frees. -/
def freed (hashFcn : UInt32 → UInt32) (r : Registry) (op : RegistryOp) : List ℕ :=
  ((r.perform hashFcn op).map Prod.fst).getD []

end Registry

/-- The loop of `compiler_free`: what it frees, and what it leaves of the list. -/
def compilerFree (junk : ℕ → Option ℕ) (list : Hash) : Option (List ℕ × Hash) :=
  (iter (fun _ => true) junk list).map fun list' => (frees (fun _ => true) junk list, list')

/-- What `cleanup` frees, and what it leaves of `compilers_map` and the lists. -/
structure Cleaned where
  freedCompilers : List ℕ
  freedEntries : List ℕ
  compilers : Hash
  lists : List Hash

/-- The second loop of `cleanup`; `compiler_free` only touches the list of its compiler. -/
def Registry.cleanup (r : Registry) (junk junk' : ℕ → Option ℕ) : Option Cleaned := do
  let compilers ← iter (fun _ => true) junk r.compilers
  let freedCompilers := frees (fun _ => true) junk r.compilers
  let entries ← freedCompilers.mapM fun k => compilerFree junk' (r.lists k)
  some ⟨freedCompilers, entries.flatMap Prod.fst, compilers, entries.map Prod.snd⟩

/-! What the operations mean. -/

structure Entries where
  compilers : List (ℕ × UInt32)
  lists : ℕ → List (ℕ × UInt32)

namespace Entries

def empty : Entries := ⟨[], fun _ => []⟩

/-- The compilers by their addresses. -/
def objects (a : Entries) : List ℕ := a.compilers.map Prod.fst

/-- The entries of all lists. -/
def live (a : Entries) : List ℕ := a.objects.flatMap fun k => (a.lists k).map Prod.fst

/-- `malloc` returns memory that is not in use. -/
def step (a : Entries) : RegistryOp → Option Entries
  | .create compiler key _ _ =>
    if compiler ∈ a.objects then none
    else some ⟨a.compilers ++ [(compiler, key)], Function.update a.lists compiler []⟩
  | .addClient compiler clientId id =>
    if compiler ∈ a.objects ∧ clientId ∉ a.live then
      some { a with
        lists := Function.update a.lists compiler (a.lists compiler ++ [(clientId, id)]) }
    else none
  | .unlist id _ => some { a with lists := fun k => (a.lists k).filter fun e => e.2 ≠ id }

end Entries

/-- An addition finds room for its element. -/
def RegistryFits (r : Registry) : RegistryOp → Prop
  | .create _ _ _ _ => r.compilers.Roomy
  | .addClient compiler _ _ => (r.lists compiler).Roomy
  | .unlist _ _ => True

/-- The compilers and the entries that the operations allocate. -/
def RegistryOp.creates : RegistryOp → List ℕ
  | .create compiler _ _ _ => [compiler]
  | _ => []

def RegistryOp.allocates : RegistryOp → List ℕ
  | .addClient _ clientId _ => [clientId]
  | _ => []

/-- The tables stand for the compilers and their entries. -/
structure Stored (hashFcn : UInt32 → UInt32) (r : Registry) (a : Entries) : Prop where
  compilers : Stands hashFcn r.compilers a.compilers
  lists : ∀ k ∈ a.objects, Stands hashFcn (r.lists k) (a.lists k)

theorem Stored.nodup {r : Registry} {a : Entries} (h : Stored hashFcn r a) : a.objects.Nodup :=
  h.compilers.holds.ordered.linked.nodup

theorem Stands.frees {h : Hash} {es : List (ℕ × UInt32)} (hs : Stands hashFcn h es) (id : UInt32)
    (junk : ℕ → Option ℕ) :
    frees (fun clid => h.hh.key clid = id) junk h = (es.filter fun e => e.2 = id).map Prod.fst := by
  rw [frees_eq hs.holds, List.filter_map]
  congr 1
  refine List.filter_congr fun e he => ?_
  simp [hs.keys e he]

theorem unlistLoop_stands (id : UInt32) (junk : ℕ → Option ℕ) {es : ℕ → List (ℕ × UInt32)}
    (ks : List ℕ) : ∀ {lists : ℕ → Hash}, ks.Nodup → (∀ k ∈ ks, Stands hashFcn (lists k) (es k)) →
      ∃ lists', unlistLoop id junk ks lists =
          some (ks.flatMap fun k => ((es k).filter fun e => e.2 = id).map Prod.fst, lists') ∧
        (∀ k ∈ ks, Stands hashFcn (lists' k) ((es k).filter fun e => e.2 ≠ id)) ∧
        ∀ k, k ∉ ks → lists' k = lists k := by
  induction ks with
  | nil =>
    intro lists _ _
    exact ⟨lists, rfl, by simp, fun _ _ => rfl⟩
  | cons x ks ih =>
    intro lists hnodup hall
    obtain ⟨hx, hnodup⟩ := List.nodup_cons.1 hnodup
    have hs := hall x List.mem_cons_self
    have hremove : entryStep (es x) (.remove id junk) = some ((es x).filter fun e => e.2 ≠ id) := rfl
    obtain ⟨list, hiter, hlist⟩ := hs.listStep hremove trivial
    have hrest : ∀ k ∈ ks, Stands hashFcn (Function.update lists x list k) (es k) := by
      intro k hk
      rw [Function.update_of_ne (ne_of_mem_of_not_mem hk hx)]
      exact hall k (List.mem_cons_of_mem _ hk)
    obtain ⟨lists', hloop, hin, hout⟩ := ih hnodup hrest
    have hiter' : iter (fun clid => (lists x).hh.key clid = id) junk (lists x) = some list := hiter
    refine ⟨lists', ?_, fun k hk => ?_, fun k hk => ?_⟩
    · simp only [unlistLoop, hiter', hloop, hs.frees, Option.bind_eq_bind, Option.bind_some,
        List.flatMap_cons]
    · rcases List.mem_cons.1 hk with rfl | hk
      · rw [hout _ hx, Function.update_self]
        exact hlist
      · exact hin k hk
    · obtain ⟨hkx, hk⟩ := not_or.1 (mt List.mem_cons.2 hk)
      rw [hout k hk, Function.update_of_ne hkx]

namespace Entries

theorem live_create {a : Entries} {compiler : ℕ} (hnew : compiler ∉ a.objects) (key : UInt32) :
    live ⟨a.compilers ++ [(compiler, key)], Function.update a.lists compiler []⟩ = a.live := by
  have hsame : ∀ k ∈ a.objects, (Function.update a.lists compiler [] k).map Prod.fst =
      (a.lists k).map Prod.fst := by
    intro k hk
    rw [Function.update_of_ne (ne_of_mem_of_not_mem hk hnew)]
  simp only [live, objects, List.map_append, List.flatMap_append, List.map_cons, List.map_nil,
    List.flatMap_singleton, Function.update_self, List.append_nil]
  exact List.flatMap_congr hsame

theorem live_add {a : Entries} (hnodup : a.objects.Nodup) {compiler : ℕ}
    (hmem : compiler ∈ a.objects) (clientId : ℕ) (id : UInt32) :
    (a.live ++ [clientId]).Perm (live { a with
      lists := Function.update a.lists compiler (a.lists compiler ++ [(clientId, id)]) }) := by
  obtain ⟨front, back, hsplit⟩ := List.append_of_mem hmem
  rw [hsplit, List.nodup_append] at hnodup
  have hfront : ∀ k ∈ front, k ≠ compiler := fun k hk => hnodup.2.2 k hk compiler List.mem_cons_self
  have hback : ∀ k ∈ back, k ≠ compiler := fun k hk =>
    ne_of_mem_of_not_mem hk (List.nodup_cons.1 hnodup.2.1).1
  have hsame : ∀ l : List ℕ, (∀ k ∈ l, k ≠ compiler) →
      (l.flatMap fun k => (Function.update a.lists compiler
        (a.lists compiler ++ [(clientId, id)]) k).map Prod.fst) =
          l.flatMap fun k => (a.lists k).map Prod.fst := by
    intro l hl
    refine List.flatMap_congr fun k hk => ?_
    rw [Function.update_of_ne (hl k hk)]
  change ((a.objects.flatMap fun k => (a.lists k).map Prod.fst) ++ [clientId]).Perm
    (a.objects.flatMap fun k => (Function.update a.lists compiler
        (a.lists compiler ++ [(clientId, id)]) k).map Prod.fst)
  rw [hsplit, List.flatMap_append, List.flatMap_append, List.flatMap_cons, List.flatMap_cons,
    hsame front hfront, hsame back hback, Function.update_self, List.map_append]
  simp only [List.append_assoc, List.map_cons, List.map_nil]
  refine List.Perm.append_left _ (List.Perm.append_left _ ?_)
  exact List.perm_append_comm

theorem live_unlist (a : Entries) (id : UInt32) :
    a.live.Perm ((a.objects.flatMap fun k => ((a.lists k).filter fun e => e.2 = id).map Prod.fst) ++
      live { a with lists := fun k => (a.lists k).filter fun e => e.2 ≠ id }) := by
  refine List.Perm.trans ?_ (List.flatMap_append_perm ..).symm
  refine List.Perm.flatMap_left _ fun k _ => ?_
  rw [← List.map_append]
  refine List.Perm.map _ ?_
  simpa using (List.filter_append_perm (fun e : ℕ × UInt32 => decide (e.2 = id)) (a.lists k)).symm

end Entries

/-- An operation does to the tables what it means, and the entries it allocates are there
afterwards unless it frees them. -/
theorem Stored.perform {r : Registry} {a a' : Entries} {op : RegistryOp} (h : Stored hashFcn r a)
    (hop : a.step op = some a') (hfits : RegistryFits r op) :
    ∃ freed r', r.perform hashFcn op = some (freed, r') ∧ Stored hashFcn r' a' ∧
      (a.live ++ op.allocates).Perm (freed ++ a'.live) ∧
        a'.objects = a.objects ++ op.creates := by
  cases op with
  | create compiler key tbl hh =>
    simp only [Entries.step] at hop
    split_ifs at hop with hnew
    obtain rfl := Option.some.inj hop
    have hentries : entriesStep a.compilers (.add compiler key) =
        some (a.compilers ++ [(compiler, key)]) := if_neg hnew
    obtain ⟨compilers, hadd, hstands⟩ := h.compilers.step hentries hfits
    have hadd' : hashAdd hashFcn r.compilers compiler key = some compilers := hadd
    refine ⟨[], ⟨compilers, Function.update r.lists compiler (.null tbl hh)⟩, ?_, ⟨hstands, ?_⟩, ?_, ?_⟩
    · simp only [Registry.perform, hadd', Option.bind_eq_bind, Option.bind_some]
    · intro k hk
      by_cases hkc : k = compiler
      · subst hkc
        simp only [Function.update_self]
        exact stands_null tbl hh
      · simp only [Function.update_of_ne hkc]
        refine h.lists k ?_
        simpa [Entries.objects, hkc] using hk
    · rw [Entries.live_create hnew key]
      simp [RegistryOp.allocates]
    · simp [Entries.objects, RegistryOp.creates]
  | addClient compiler clientId id =>
    simp only [Entries.step] at hop
    split_ifs at hop with hnew
    obtain rfl := Option.some.inj hop
    obtain ⟨hmem, hfresh⟩ := hnew
    have hout : clientId ∉ (a.lists compiler).map Prod.fst := fun hin =>
      hfresh (List.mem_flatMap.2 ⟨compiler, hmem, hin⟩)
    have hentries : entriesStep (a.lists compiler) (.add clientId id) =
        some (a.lists compiler ++ [(clientId, id)]) := if_neg hout
    obtain ⟨list, hadd, hstands⟩ := (h.lists compiler hmem).step hentries hfits
    have hadd' : hashAdd hashFcn (r.lists compiler) clientId id = some list := hadd
    refine ⟨[], { r with lists := Function.update r.lists compiler list }, ?_, ⟨h.compilers, ?_⟩,
      Entries.live_add h.nodup hmem clientId id, (List.append_nil _).symm⟩
    · simp only [Registry.perform, hadd', Option.bind_eq_bind, Option.bind_some]
    · intro k hk
      by_cases hkc : k = compiler
      · subst hkc
        simp only [Function.update_self]
        exact hstands
      · simp only [Function.update_of_ne hkc]
        exact h.lists k hk
  | unlist id junk =>
    obtain rfl := Option.some.inj hop
    obtain ⟨lists, hloop, hin, -⟩ := unlistLoop_stands id junk a.objects h.nodup h.lists
    refine ⟨a.objects.flatMap fun k => ((a.lists k).filter fun e => e.2 = id).map Prod.fst,
      { r with lists := lists }, ?_, ⟨h.compilers, hin⟩, ?_, (List.append_nil _).symm⟩
    · have hvisits := h.compilers.holds.visits
      simp only [Registry.perform, hvisits, Option.bind_eq_bind, Option.bind_some]
      rw [← Entries.objects, hloop]
      rfl
    · have hnone : (RegistryOp.unlist id junk).allocates = [] := rfl
      rw [hnone, List.append_nil]
      exact a.live_unlist id

theorem compilerFree_stands {h : Hash} {es : List (ℕ × UInt32)} (hs : Stands hashFcn h es)
    (junk : ℕ → Option ℕ) :
    ∃ h', compilerFree junk h = some (es.map Prod.fst, h') ∧ h'.head = none := by
  obtain ⟨h', hiter, hholds, -⟩ := iter_holds hs.holds (fun _ => true) junk
  refine ⟨h', ?_, hholds.head_eq_none.2 (by simp)⟩
  rw [compilerFree, hiter, Option.map_some, frees_eq hs.holds, List.filter_true]

theorem compilerFree_all {r : Registry} {a : Entries} (junk : ℕ → Option ℕ) (ks : List ℕ) :
    (∀ k ∈ ks, Stands hashFcn (r.lists k) (a.lists k)) →
      ∃ entries, (ks.mapM fun k => compilerFree junk (r.lists k)) = some entries ∧
        entries.flatMap Prod.fst = ks.flatMap (fun k => (a.lists k).map Prod.fst) ∧
          ∀ e ∈ entries, e.2.head = none := by
  induction ks with
  | nil =>
    intro _
    exact ⟨[], rfl, rfl, by simp⟩
  | cons k ks ih =>
    intro hall
    obtain ⟨list, hfree, hempty⟩ := compilerFree_stands (hall k List.mem_cons_self) junk
    obtain ⟨entries, hrest, hflat, hheads⟩ := ih fun x hx => hall x (List.mem_cons_of_mem _ hx)
    refine ⟨((a.lists k).map Prod.fst, list) :: entries, ?_, ?_, ?_⟩
    · simp [List.mapM_cons, hfree, hrest]
    · rw [List.flatMap_cons, List.flatMap_cons, hflat]
    · rintro e he
      rcases List.mem_cons.1 he with rfl | he
      · exact hempty
      · exact hheads e he

/-- `cleanup` frees every compiler and every entry that is left. -/
theorem Stored.cleanup {r : Registry} {a : Entries} (h : Stored hashFcn r a)
    (junk junk' : ℕ → Option ℕ) :
    ∃ c, r.cleanup junk junk' = some c ∧ c.freedCompilers = a.objects ∧ c.freedEntries = a.live ∧
      c.compilers.head = none ∧ ∀ list ∈ c.lists, list.head = none := by
  obtain ⟨compilers, hiter, hholds, -⟩ := iter_holds h.compilers.holds (fun _ => true) junk
  have hfreed : frees (fun _ => true) junk r.compilers = a.objects := by
    rw [frees_eq h.compilers.holds, List.filter_true]
    rfl
  obtain ⟨entries, hentries, hflat, hheads⟩ := compilerFree_all junk' a.objects h.lists
  refine ⟨⟨a.objects, a.live, compilers, entries.map Prod.snd⟩, ?_, rfl, rfl,
    hholds.head_eq_none.2 (by simp), ?_⟩
  · simp only [Registry.cleanup, hiter, hfreed, hentries, hflat, Option.bind_eq_bind,
      Option.bind_some]
    rfl
  · intro list hlist
    obtain ⟨e, he, rfl⟩ := List.mem_map.1 hlist
    exact hheads e he

/-- Nothing is registered yet; the memory may contain anything. -/
def Registry.null (tbl : HashTable) (hh : Handles) (lists : ℕ → Hash) : Registry :=
  ⟨.null tbl hh, lists⟩

/-- What the operations free in a run. -/
def freedBy (hashFcn : UInt32 → UInt32) (r₀ : Registry) (ops : List RegistryOp) : List ℕ :=
  outputs (Registry.step hashFcn) (Registry.freed hashFcn) r₀ ops

theorem stored_run (tbl : HashTable) (hh : Handles) (lists : ℕ → Hash) {ops : List RegistryOp}
    {a : Entries} (hrun : Run Entries.step .empty ops a)
    (hfits : Along (Registry.step hashFcn) (.null tbl hh lists) ops RegistryFits) :
    ∃ r, Run (Registry.step hashFcn) (.null tbl hh lists) ops r ∧ Stored hashFcn r a ∧
      (ops.flatMap RegistryOp.allocates).Perm (freedBy hashFcn (.null tbl hh lists) ops ++ a.live) ∧
        a.objects = ops.flatMap RegistryOp.creates := by
  induction hrun with
  | nil =>
    refine ⟨_, Run.nil, ⟨stands_null tbl hh, ?_⟩, .refl _, rfl⟩
    intro k hk
    cases hk
  | @snoc ops op a a' _ hop ih =>
    obtain ⟨r, hr, hs, hperm, hobjects⟩ := ih hfits.left
    obtain ⟨freed, r', hperform, hs', hop, hcreates⟩ :=
      hs.perform hop ((along_snoc hr).1 hfits).2
    have hstep : r.step hashFcn op = some r' := by rw [Registry.step, hperform, Option.map_some]
    have hout : r.freed hashFcn op = freed := by
      rw [Registry.freed, hperform, Option.map_some, Option.getD_some]
    refine ⟨r', hr.snoc hstep, hs', ?_, ?_⟩
    · rw [List.flatMap_append, List.flatMap_singleton, freedBy, outputs_snoc hr, ← freedBy, hout]
      have hall := hperm.append_right op.allocates
      rw [List.append_assoc] at hall
      rw [List.append_assoc]
      exact hall.trans (hop.append_left _)
    · rw [hcreates, hobjects, List.flatMap_append, List.flatMap_singleton]

/-- `cleanup` finishes what the run has left: it frees the compilers in the order of their
creation, and each entry is freed once, by `remove_client` or by `compiler_free`. -/
structure FreesRest (ops : List RegistryOp) (freed : List ℕ) (c : Cleaned) : Prop where
  compilers : c.freedCompilers = ops.flatMap RegistryOp.creates
  entries : (freed ++ c.freedEntries).Perm (ops.flatMap RegistryOp.allocates)
  emptied : c.compilers.head = none ∧ ∀ list ∈ c.lists, list.head = none

theorem registry_freed (hashFcn : UInt32 → UInt32) (tbl : HashTable) (hh : Handles)
    (lists : ℕ → Hash) (ops : List RegistryOp) (a : Entries) (hrun : Run Entries.step .empty ops a)
    (hfits : Along (Registry.step hashFcn) (.null tbl hh lists) ops RegistryFits) :
    ∃ r, Run (Registry.step hashFcn) (.null tbl hh lists) ops r ∧ ∀ junk junk',
      ∃ c, r.cleanup junk junk' = some c ∧
        FreesRest ops (freedBy hashFcn (.null tbl hh lists) ops) c := by
  obtain ⟨r, hr, hs, hperm, hobjects⟩ := stored_run tbl hh lists hrun hfits
  refine ⟨r, hr, fun junk junk' => ?_⟩
  obtain ⟨c, hclean, hcompilers, hentries, hempty⟩ := hs.cleanup junk junk'
  refine ⟨c, hclean, hcompilers.trans hobjects, ?_, hempty⟩
  rw [hentries]
  exact hperm.symm

/-- Two clients register for two compilers, the first one is removed, and `malloc` returns
an address again that was freed. -/
def registering : List RegistryOp :=
  [.create 0 7 (makeTable 0) zeros, .addClient 0 10 1, .addClient 0 11 2,
    .create 1 8 (makeTable 0) zeros, .addClient 1 12 1, .unlist 1 fun _ => some 11,
    .addClient 1 10 3]

theorem registry_freed_again :
    ∃ r, Run (Registry.step hashJen) (.null (makeTable 0) zeros fun _ => .null (makeTable 0) zeros)
        registering r ∧
      ∃ c, r.cleanup (fun _ => some 1) (fun _ => some 10) = some c ∧ c.freedCompilers = [0, 1] ∧
        (freedBy hashJen (.null (makeTable 0) zeros fun _ => .null (makeTable 0) zeros) registering ++
          c.freedEntries).Perm [10, 11, 12, 10] := by
  have hfits : Along (Registry.step hashJen)
      (.null (makeTable 0) zeros fun _ => .null (makeTable 0) zeros) registering RegistryFits := by
    refine (along_cons rfl).2 ⟨fun h => absurd rfl h, ?_⟩
    refine (along_cons rfl).2 ⟨fun h => absurd rfl h, ?_⟩
    refine (along_cons rfl).2 ⟨fun _ => ⟨by decide, by decide⟩, ?_⟩
    refine (along_cons rfl).2 ⟨fun _ => ⟨by decide, by decide⟩, ?_⟩
    refine (along_cons rfl).2 ⟨fun h => absurd rfl h, ?_⟩
    refine (along_cons rfl).2 ⟨trivial, ?_⟩
    exact (along_cons rfl).2 ⟨fun h => absurd rfl h, along_nil⟩
  obtain ⟨r, hr, hclean⟩ := registry_freed hashJen (makeTable 0) zeros
    (fun _ => .null (makeTable 0) zeros) registering _ (Run.iff_foldlM.2 rfl) hfits
  obtain ⟨c, hc, hrest⟩ := hclean (fun _ => some 1) fun _ => some 10
  exact ⟨r, hr, c, hc, hrest.compilers, hrest.entries⟩

end JudgeServer.Uthash
