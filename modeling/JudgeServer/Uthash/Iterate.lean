import JudgeServer.Uthash.Lookup

/-! `HASH_ITER` with a body that deletes and frees, as in `remove_client`, `cleanup` and
`compiler_free`: the next element is remembered before the body runs. -/

namespace JudgeServer.Uthash

open Links Transition

variable {hashFcn : UInt32 → UInt32}

/-- Memory outside of the table may change. -/
theorem Holds.release {h : Hash} {items : List ℕ} (hh : Holds hashFcn h items) {x : ℕ}
    (hx : x ∉ items) (junk : Option ℕ) :
    Holds hashFcn { h with hh := h.hh.release x junk } items := by
  have hne : ∀ y ∈ items, y ≠ x := fun y hy heq => hx (heq ▸ hy)
  obtain ⟨⟨ho₁, ho₂, ho₃, ho₄⟩, hchained, hshort⟩ := hh
  refine ⟨⟨ho₁, ?_, ho₃, ho₄⟩, fun hleft => ?_, hshort⟩
  · exact ho₂.congr (fun y hy => Function.update_of_ne (hne y hy) ..)
      fun y hy => Function.update_of_ne (hne y hy) ..
  · obtain ⟨chains, h₁, h₂, h₃, h₄, h₅, h₆, h₇⟩ := hchained hleft
    have hchain : ∀ i, ∀ y ∈ chains i, y ≠ x := fun i y hy => hne y ((h₇ i y).1 hy).1
    refine ⟨chains, h₁, h₂, h₃, h₄, h₅, fun i => ?_, h₇⟩
    exact (h₆ i).congr (fun y hy => Function.update_of_ne (hchain i y hy) ..)
      fun y hy => Function.update_of_ne (hchain i y hy) ..

/-- The link of an element leads to the next one. -/
theorem Holds.after {h : Hash} {kept l : List ℕ} (hh : Holds hashFcn h (kept ++ l)) :
    l.head?.bind h.hh.next = l.tail.head? := by
  cases l with
  | nil => rfl
  | cons x l => exact hh.ordered.linked.neighbours.2

/-- The body of the loop. -/
def iterBody (gone : ℕ → Bool) (junk : ℕ → Option ℕ) (h : Hash) (el : ℕ) : Hash :=
  if gone el then { hashDelete h el with hh := (hashDelete h el).hh.release el (junk el) } else h

/-- Behind the elements that are done, the loop stands at one element and remembers the
one after it. -/
theorem iterBody_holds (gone : ℕ → Bool) (junk : ℕ → Option ℕ) {h : Hash} {kept l : List ℕ} {x : ℕ}
    (hh : Holds hashFcn h (kept ++ x :: l)) :
    Holds hashFcn (iterBody gone junk h x) ((if gone x then kept else kept ++ [x]) ++ l) ∧
      (iterBody gone junk h x).hh.key = h.hh.key := by
  unfold iterBody
  split_ifs
  · have herase : (kept ++ x :: l).erase x = kept ++ l := Linked.erase_split hh.ordered.linked.nodup
    have hdel := hashDelete_holds hh (x := x) (by simp)
    rw [herase] at hdel
    have hx : x ∉ kept ++ l := by
      have hnodup := hh.ordered.linked.nodup
      rw [← herase]
      exact hnodup.not_mem_erase
    exact ⟨hdel.release hx (junk x), (hashDelete_hh h x).1⟩
  · exact ⟨by simpa using hh, rfl⟩

theorem iterDelete_holds (gone : ℕ → Bool) (junk : ℕ → Option ℕ) {l : List ℕ} :
    ∀ {h : Hash} {kept : List ℕ} {rounds : ℕ}, Holds hashFcn h (kept ++ l) → l.length ≤ rounds →
      ∃ h', iterDelete gone junk rounds l.head? l.tail.head? h = some h' ∧
        Holds hashFcn h' (kept ++ l.filter fun x => !gone x) ∧ h'.hh.key = h.hh.key := by
  induction l with
  | nil =>
    intro h kept rounds hh _
    refine ⟨h, ?_, by simpa using hh, rfl⟩
    unfold iterDelete
    rfl
  | cons x l ih =>
    intro h kept rounds hh hrounds
    obtain ⟨rounds, rfl⟩ : ∃ r, rounds = r + 1 := ⟨rounds - 1, by simp at hrounds; omega⟩
    obtain ⟨hbody, hkey⟩ := iterBody_holds gone junk hh
    obtain ⟨h', hiter, hholds, hkey'⟩ := ih hbody (by simpa using hrounds)
    -- what the loop reads next is the link of an element that is still there
    have hnext := hbody.after
    refine ⟨h', ?_, ?_, hkey'.trans hkey⟩
    · rw [List.head?_cons, List.tail_cons, iterDelete]
      change iterDelete gone junk rounds l.head? (l.head?.bind (iterBody gone junk h x).hh.next)
        (iterBody gone junk h x) = some h'
      rw [hnext]
      exact hiter
    · rw [List.filter_cons]
      cases hg : gone x <;> simpa [hg] using hholds

theorem iter_holds {h : Hash} {items : List ℕ} (hh : Holds hashFcn h items) (gone : ℕ → Bool)
    (junk : ℕ → Option ℕ) :
    ∃ h', iter gone junk h = some h' ∧ Holds hashFcn h' (items.filter fun x => !gone x) ∧
      h'.hh.key = h.hh.key := by
  by_cases hne : items = []
  · subst hne
    refine ⟨h, ?_, hh, rfl⟩
    simp only [iter, hh.head_eq_none.2 rfl, Option.bind_none]
    unfold iterDelete
    rfl
  · have hall : Holds hashFcn h ([] ++ items) := hh
    obtain ⟨h', hiter, hholds, hkey⟩ := iterDelete_holds gone junk hall (hh.length hne).ge
    refine ⟨h', ?_, hholds, hkey⟩
    have htmp : h.head.bind h.hh.next = items.tail.head? := by
      rw [hh.ordered.head]
      exact hall.after
    rw [iter, htmp, hh.ordered.head]
    exact hiter

/-! The clients of a compiler. -/

/-- `HASH_ADD_INT(compiler->clients_list, id, client_id)` for a new `client_id`, and the
loop of `remove_client` over one list, with what becomes of the memory it frees. -/
inductive ListOp
  | add (clientId : ℕ) (id : UInt32)
  | remove (id : UInt32) (junk : ℕ → Option ℕ)

def listStep (hashFcn : UInt32 → UInt32) (h : Hash) : ListOp → Option Hash
  | .add clientId id => hashAdd hashFcn h clientId id
  | .remove id junk => iter (fun clid => h.hh.key clid = id) junk h

/-- The list of entries that `CompilersMap` keeps for a compiler: the memory of a new
entry is not in use. -/
def entryStep (es : List (ℕ × UInt32)) : ListOp → Option (List (ℕ × UInt32))
  | .add clientId id => if clientId ∈ es.map Prod.fst then none else some (es ++ [(clientId, id)])
  | .remove id _ => some (es.filter fun e => e.2 ≠ id)

def ListFits (h : Hash) : ListOp → Prop
  | .add _ _ => h.Roomy
  | .remove _ _ => True

theorem Stands.listStep {h : Hash} {es es' : List (ℕ × UInt32)} {op : ListOp}
    (hs : Stands hashFcn h es) (hop : entryStep es op = some es') (hfits : ListFits h op) :
    ∃ h', Uthash.listStep hashFcn h op = some h' ∧ Stands hashFcn h' es' := by
  cases op with
  | add clientId id =>
    have hadd : entriesStep es (.add clientId id) = some es' := hop
    exact hs.step hadd hfits
  | remove id junk =>
    obtain rfl := Option.some.inj hop
    obtain ⟨h', hiter, hholds, hkey⟩ := iter_holds hs.holds (fun clid => h.hh.key clid = id) junk
    refine ⟨h', hiter, ?_, fun e he => ?_⟩
    · rw [List.filter_map] at hholds
      have hsame : (es.filter fun e => e.2 ≠ id) =
          es.filter ((fun x => !decide (h.hh.key x = id)) ∘ Prod.fst) := by
        refine List.filter_congr fun e he => ?_
        simp [hs.keys e he]
      rwa [hsame]
    · rw [hkey]
      exact hs.keys e (List.mem_of_mem_filter he)

/-- What `push_solution` reads off a list: the ids of its entries in order. -/
def Hash.ids (h : Hash) : Option (List UInt32) :=
  (visited h.hh.next h.tbl.numItems.toNat h.head).map fun items => items.map h.hh.key

theorem Stands.ids {h : Hash} {es : List (ℕ × UInt32)} (hs : Stands hashFcn h es) :
    h.ids = some (es.map Prod.snd) := by
  rw [Hash.ids, hs.holds.visits, Option.map_some, List.map_map]
  congr 1
  exact List.map_congr_left hs.keys

/-- What the operations do to the plain list of ids: an id is appended, and all entries
with an id are taken out. -/
def idsStep (ids : List UInt32) : ListOp → List UInt32
  | .add _ id => ids ++ [id]
  | .remove id _ => ids.filter (· ≠ id)

theorem entryStep_ids {es es' : List (ℕ × UInt32)} {op : ListOp} (hop : entryStep es op = some es') :
    es'.map Prod.snd = idsStep (es.map Prod.snd) op := by
  cases op with
  | add clientId id =>
    simp only [entryStep] at hop
    split_ifs at hop
    obtain rfl := Option.some.inj hop
    simp [idsStep]
  | remove id junk =>
    obtain rfl := Option.some.inj hop
    rw [idsStep, List.filter_map]
    rfl

/-- Over any sequence of announcements and removals the real list reads as the plain list
of ids; what the freed entries contain afterwards plays no part. -/
theorem client_list_refines (hashFcn : UInt32 → UInt32) (tbl : HashTable) (hh : Handles)
    (ops : List ListOp) (es : List (ℕ × UInt32)) (hrun : Run entryStep [] ops es)
    (hfits : Along (listStep hashFcn) (.null tbl hh) ops ListFits) :
    ∃ h, Run (listStep hashFcn) (.null tbl hh) ops h ∧ fsck h = true ∧
      h.ids = some (ops.foldl idsStep []) := by
  suffices hstands : ∃ h, Run (listStep hashFcn) (.null tbl hh) ops h ∧ Stands hashFcn h es ∧
      es.map Prod.snd = ops.foldl idsStep [] by
    obtain ⟨h, hr, hs, hids⟩ := hstands
    exact ⟨h, hr, hs.holds.fsck, by rw [hs.ids, hids]⟩
  induction hrun with
  | nil => exact ⟨_, Run.nil, stands_null tbl hh, rfl⟩
  | @snoc ops op es es' _ hop ih =>
    obtain ⟨h, hr, hs, hids⟩ := ih hfits.left
    obtain ⟨h', hstep, hs'⟩ := hs.listStep hop ((along_snoc hr).1 hfits).2
    refine ⟨h', hr.snoc hstep, hs', ?_⟩
    rw [entryStep_ids hop, hids, List.foldl_append]
    rfl

/-- A client announces a compiler twice, another one once, and the first is removed. -/
def announcing : List ListOp := [.add 0 1, .add 1 2, .add 2 1, .remove 1 fun _ => some 1]

theorem client_list_refines_announcing :
    ∃ h, Run (listStep hashJen) (.null (makeTable 0) zeros) announcing h ∧ fsck h = true ∧
      h.ids = some [2] := by
  refine client_list_refines hashJen _ _ announcing [(1, 2)] (Run.iff_foldlM.2 rfl) ?_
  refine (along_cons rfl).2 ⟨fun h => absurd rfl h, ?_⟩
  refine (along_cons rfl).2 ⟨fun _ => ⟨by decide, by decide⟩, ?_⟩
  refine (along_cons rfl).2 ⟨fun _ => ⟨by decide, by decide⟩, ?_⟩
  exact (along_cons rfl).2 ⟨trivial, along_nil⟩

end JudgeServer.Uthash
