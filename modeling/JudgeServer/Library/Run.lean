import Mathlib.Tactic

/-! Runs of a labelled transition system given by a partial step function:
`step s a = some s'` when action `a` is possible in `s` and leads to `s'`. The
rules here are the induction principle for run invariants, the same rule for runs
whose steps all meet a condition, the correspondence with evaluation, and for infinite runs
the rank rule and weak fairness. -/

namespace Transition

variable {σ α : Type*} {step : σ → α → Option σ}

/-- The actions `as` lead from `s₀` to `s`. -/
inductive Run (step : σ → α → Option σ) (s₀ : σ) : List α → σ → Prop
  | nil : Run step s₀ [] s₀
  | snoc {as : List α} {a : α} {s s' : σ} :
      Run step s₀ as s → step s a = some s' → Run step s₀ (as ++ [a]) s'

/-- Every action of `as` is taken in a state that meets `ok` with it. -/
def Along (step : σ → α → Option σ) (s₀ : σ) (as : List α) (ok : σ → α → Prop) : Prop :=
  ∀ pre a post s, as = pre ++ a :: post → Run step s₀ pre s → ok s a

/-- Every state that `as` passes through, the first and the last included, meets `P`. -/
def Throughout (step : σ → α → Option σ) (s₀ : σ) (as : List α) (P : σ → Prop) : Prop :=
  ∀ pre post s, as = pre ++ post → Run step s₀ pre s → P s

/-- What a run puts out, when each step puts out `out`. -/
def outputs {β : Type*} (step : σ → α → Option σ) (out : σ → α → List β) : σ → List α → List β
  | _, [] => []
  | s, a :: as => out s a ++
      match step s a with
      | some s' => outputs step out s' as
      | none => []

namespace Run

theorem single {s s' : σ} {a : α} (h : step s a = some s') : Run step s [a] s' := by
  have hnil : Run step s ([] : List α) s := Run.nil
  exact hnil.snoc h

theorem trans {s t u : σ} {as bs : List α} (h : Run step s as t) (k : Run step t bs u) :
    Run step s (as ++ bs) u := by
  induction k with
  | nil => simpa using h
  | snoc _ hs ih =>
    rw [← List.append_assoc]
    exact Run.snoc ih hs

theorem nil_iff {s t : σ} : Run step s [] t ↔ t = s := by
  constructor
  · intro h
    generalize he : ([] : List α) = as at h
    cases h with
    | nil => rfl
    | snoc _ _ => simp at he
  · rintro rfl
    exact Run.nil

theorem snoc_iff {s t : σ} {as : List α} {a : α} :
    Run step s (as ++ [a]) t ↔ ∃ m, Run step s as m ∧ step m a = some t := by
  constructor
  · intro h
    generalize he : as ++ [a] = bs at h
    cases h with
    | nil => simp at he
    | snoc hr hs =>
      obtain ⟨rfl, hb⟩ := List.append_inj' he rfl
      obtain rfl := List.singleton_inj.1 hb
      exact ⟨_, hr, hs⟩
  · rintro ⟨m, hr, hs⟩
    exact Run.snoc hr hs

theorem append_iff {s u : σ} {as bs : List α} :
    Run step s (as ++ bs) u ↔ ∃ t, Run step s as t ∧ Run step t bs u := by
  constructor
  · intro h
    induction bs using List.reverseRecOn generalizing u with
    | nil => exact ⟨u, by simpa using h, Run.nil⟩
    | append_singleton bs b ih =>
      rw [← List.append_assoc, snoc_iff] at h
      obtain ⟨m, hm, hs⟩ := h
      obtain ⟨t, ht, hb⟩ := ih hm
      exact ⟨t, ht, hb.snoc hs⟩
  · rintro ⟨t, h, k⟩
    exact h.trans k

theorem cons_iff {s u : σ} {a : α} {as : List α} :
    Run step s (a :: as) u ↔ ∃ t, step s a = some t ∧ Run step t as u := by
  rw [← List.singleton_append, append_iff]
  constructor
  · rintro ⟨t, h, k⟩
    rw [← List.nil_append [a], snoc_iff] at h
    obtain ⟨m, hm, hs⟩ := h
    rw [nil_iff] at hm
    subst hm
    exact ⟨t, hs, k⟩
  · rintro ⟨t, hs, k⟩
    exact ⟨t, single hs, k⟩

/-- The actions of a run determine where it ends. -/
theorem unique {s t u : σ} {as : List α} (h : Run step s as t) (k : Run step s as u) : t = u := by
  induction h generalizing u with
  | nil => exact (nil_iff.1 k).symm
  | snoc _ hs ih =>
    obtain ⟨m, hm, hk⟩ := snoc_iff.1 k
    rw [ih hm, hk] at hs
    exact (Option.some.inj hs).symm

/-- A run is what folding the step function over its actions computes. -/
theorem iff_foldlM {s t : σ} {as : List α} :
    Run step s as t ↔ as.foldlM step s = some t := by
  induction as generalizing s with
  | nil => simp [nil_iff, eq_comm]
  | cons a as ih =>
    rw [cons_iff, List.foldlM_cons]
    simp only [ih, Option.bind_eq_bind, Option.bind_eq_some_iff]

/-- What holds at the start and is kept by every step holds at the end of every run. -/
theorem invariant {I : σ → Prop} {s₀ s : σ} {as : List α} (h : Run step s₀ as s) (h0 : I s₀)
    (hstep : ∀ s a s', I s → step s a = some s' → I s') : I s := by
  induction h with
  | nil => exact h0
  | snoc _ hs ih => exact hstep _ _ _ ih hs

end Run

theorem along_nil {s₀ : σ} {ok : σ → α → Prop} : Along step s₀ [] ok := by
  intro pre a post s he _
  simp at he

/-- A condition on the actions alone. -/
theorem along_of_forall {s₀ : σ} {as : List α} {ok : σ → α → Prop}
    (h : ∀ a ∈ as, ∀ s, ok s a) : Along step s₀ as ok := by
  rintro pre a post s rfl _
  exact h a (by simp) s

theorem Along.left {s₀ : σ} {as bs : List α} {ok : σ → α → Prop}
    (h : Along step s₀ (as ++ bs) ok) : Along step s₀ as ok := by
  intro pre a post s he hr
  exact h pre a (post ++ bs) s (by simp [he]) hr

theorem along_snoc {s₀ s : σ} {as : List α} {a : α} {ok : σ → α → Prop} (hr : Run step s₀ as s) :
    Along step s₀ (as ++ [a]) ok ↔ Along step s₀ as ok ∧ ok s a := by
  constructor
  · intro h
    exact ⟨h.left, h as a [] s rfl hr⟩
  · rintro ⟨h, ha⟩ pre b post t he hp
    rcases List.eq_nil_or_concat post with rfl | ⟨post, c, rfl⟩
    · obtain ⟨rfl, hb⟩ := List.append_inj' he rfl
      obtain rfl := List.singleton_inj.1 hb
      rwa [hp.unique hr]
    · rw [List.concat_eq_append, ← List.cons_append, ← List.append_assoc] at he
      obtain ⟨rfl, -⟩ := List.append_inj' he rfl
      exact h pre b post t rfl hp

theorem along_cons {s₀ s : σ} {a : α} {as : List α} {ok : σ → α → Prop}
    (hs : step s₀ a = some s) : Along step s₀ (a :: as) ok ↔ ok s₀ a ∧ Along step s as ok := by
  refine ⟨fun h => ⟨h [] a as s₀ rfl Run.nil, fun pre b post t he hr => ?_⟩, ?_⟩
  · exact h (a :: pre) b post t (by simp [he]) (Run.cons_iff.2 ⟨s, hs, hr⟩)
  · rintro ⟨ha, h⟩ pre b post t he hr
    cases pre with
    | nil =>
      obtain ⟨rfl, rfl⟩ := List.cons.inj he
      rwa [Run.nil_iff.1 hr]
    | cons c pre =>
      obtain ⟨rfl, htail⟩ := List.cons.inj he
      obtain ⟨m, hm, hrest⟩ := Run.cons_iff.1 hr
      rw [hs] at hm
      obtain rfl := Option.some.inj hm
      exact h pre b post t htail hrest

theorem along_append {s₀ s : σ} {as : List α} {ok : σ → α → Prop} (hr : Run step s₀ as s)
    (bs : List α) : Along step s₀ (as ++ bs) ok ↔ Along step s₀ as ok ∧ Along step s bs ok := by
  induction hr generalizing bs with
  | nil => simp [along_nil]
  | snoc hr hs ih =>
    rw [List.append_assoc, List.singleton_append, ih, along_cons hs, along_snoc hr, and_assoc]

theorem throughout_nil {s₀ : σ} {P : σ → Prop} : Throughout step s₀ ([] : List α) P ↔ P s₀ := by
  constructor
  · intro h
    exact h [] [] s₀ rfl Run.nil
  · intro h pre post s he hr
    obtain ⟨rfl, -⟩ := List.append_eq_nil_iff.1 he.symm
    rwa [Run.nil_iff.1 hr]

theorem throughout_snoc {s₀ s : σ} {as : List α} {a : α} {P : σ → Prop}
    (hr : Run step s₀ (as ++ [a]) s) :
    Throughout step s₀ (as ++ [a]) P ↔ Throughout step s₀ as P ∧ P s := by
  constructor
  · intro h
    refine ⟨fun pre post t he hp => h pre (post ++ [a]) t (by simp [he]) hp, ?_⟩
    exact h (as ++ [a]) [] s (by simp) hr
  · rintro ⟨h, hs⟩ pre post t he hp
    rcases List.eq_nil_or_concat post with rfl | ⟨post, c, rfl⟩
    · rw [List.append_nil] at he
      subst he
      rwa [hp.unique hr]
    · rw [List.concat_eq_append, ← List.append_assoc] at he
      obtain ⟨rfl, -⟩ := List.append_inj' he rfl
      exact h pre post t rfl hp

/-- The invariant rule for runs whose steps all meet a condition. -/
theorem Run.invariant_along {I : σ → Prop} {ok : σ → α → Prop} {s₀ s : σ} {as : List α}
    (h : Run step s₀ as s) (hok : Along step s₀ as ok) (h0 : I s₀)
    (hstep : ∀ s a s', I s → ok s a → step s a = some s' → I s') : I s := by
  induction h with
  | nil => exact h0
  | snoc hr hs ih =>
    obtain ⟨hok, ha⟩ := (along_snoc hr).1 hok
    exact hstep _ _ _ (ih hok) ha hs

/-- Runs on which a number goes down with each step are no longer than this number. -/
theorem Run.length_add_le {I : σ → Prop} {μ : σ → ℕ} {s₀ s : σ} {as : List α}
    (h : Run step s₀ as s) (h0 : I s₀)
    (hstep : ∀ s a s', I s → step s a = some s' → I s' ∧ μ s' < μ s) :
    I s ∧ as.length + μ s ≤ μ s₀ := by
  induction h with
  | nil => exact ⟨h0, by simp⟩
  | snoc _ hs ih =>
    obtain ⟨hI, hlen⟩ := ih
    obtain ⟨hI', hlt⟩ := hstep _ _ _ hI hs
    refine ⟨hI', ?_⟩
    rw [List.length_append, List.length_singleton]
    omega

/-- Such an invariant holds in every state the run passes through. -/
theorem Throughout.of_along {I : σ → Prop} {ok : σ → α → Prop} {s₀ : σ} {as : List α}
    (hok : Along step s₀ as ok) (h0 : I s₀)
    (hstep : ∀ s a s', I s → ok s a → step s a = some s' → I s') : Throughout step s₀ as I := by
  rintro pre post s rfl hr
  exact hr.invariant_along hok.left h0 hstep

theorem outputs_cons {β : Type*} {out : σ → α → List β} {s t : σ} {a : α} (h : step s a = some t)
    (as : List α) : outputs step out s (a :: as) = out s a ++ outputs step out t as := by
  simp only [outputs, h]

theorem outputs_append {β : Type*} {out : σ → α → List β} {s t : σ} {as : List α}
    (h : Run step s as t) (bs : List α) :
    outputs step out s (as ++ bs) = outputs step out s as ++ outputs step out t bs := by
  induction as generalizing s with
  | nil =>
    obtain rfl := Run.nil_iff.1 h
    rfl
  | cons a as ih =>
    obtain ⟨m, hm, hr⟩ := Run.cons_iff.1 h
    rw [List.cons_append, outputs_cons hm, outputs_cons hm, ih hr, List.append_assoc]

theorem outputs_snoc {β : Type*} {out : σ → α → List β} {s t : σ} {as : List α}
    (h : Run step s as t) (a : α) :
    outputs step out s (as ++ [a]) = outputs step out s as ++ out t a := by
  rw [outputs_append h]
  simp only [outputs]
  split <;> simp

/-- A run that goes on for ever. -/
def Forever (step : σ → α → Option σ) (run : ℕ → σ) (acts : ℕ → α) : Prop :=
  ∀ i, step (run i) (acts i) = some (run (i + 1))

namespace Forever

variable {run : ℕ → σ} {acts : ℕ → α}

theorem upTo (h : Forever step run acts) (k : ℕ) :
    Run step (run 0) ((List.range k).map acts) (run k) := by
  induction k with
  | zero => exact Run.nil
  | succ k ih =>
    rw [List.range_succ, List.map_append]
    exact ih.snoc (h k)

theorem drop (h : Forever step run acts) (k : ℕ) :
    Forever step (fun i => run (k + i)) fun i => acts (k + i) := fun i => h (k + i)

theorem invariant {I : σ → Prop} {ok : σ → α → Prop} (h : Forever step run acts) (h0 : I (run 0))
    (hok : ∀ i, ok (run i) (acts i))
    (hstep : ∀ s a s', I s → ok s a → step s a = some s' → I s') (i : ℕ) : I (run i) := by
  induction i with
  | zero => exact h0
  | succ i ih => exact hstep _ _ _ ih (hok i) (h i)

/-- Where every step lowers a well-founded rank, or is quiet and keeps it, all steps from
some point on are quiet. -/
theorem settles {ι : Type*} [PartialOrder ι] [WellFoundedLT ι] {I : σ → Prop}
    {ok quiet : σ → α → Prop} (rank : σ → ι) (h : Forever step run acts) (h0 : I (run 0))
    (hok : ∀ i, ok (run i) (acts i))
    (hI : ∀ s a s', I s → ok s a → step s a = some s' → I s')
    (hrank : ∀ s a s', I s → ok s a → step s a = some s' →
      quiet s a ∧ rank s' = rank s ∨ rank s' < rank s) : ∃ i, ∀ j ≥ i, quiet (run j) (acts j) := by
  have hstep : ∀ i, quiet (run i) (acts i) ∧ rank (run (i + 1)) = rank (run i) ∨
      rank (run (i + 1)) < rank (run i) := by
    intro i
    exact hrank _ _ _ (h.invariant h0 hok hI i) (hok i) (h i)
  have hanti : Antitone fun i => rank (run i) := by
    refine antitone_nat_of_succ_le fun i => ?_
    rcases hstep i with ⟨-, heq⟩ | hlt
    · exact heq.le
    · exact hlt.le
  -- from where the rank is least it cannot fall
  obtain ⟨r, ⟨i, rfl⟩, hmin⟩ := wellFounded_lt.has_min (Set.range fun i => rank (run i)) ⟨_, 0, rfl⟩
  refine ⟨i, fun j hj => ?_⟩
  rcases hstep j with ⟨hquiet, -⟩ | hlt
  · exact hquiet
  · exact absurd (hlt.trans_le (hanti hj)) (hmin _ ⟨j + 1, rfl⟩)

end Forever

/-- Some step that `mover` counts as one of `w` is possible. -/
def Able {ω : Type*} (step : σ → α → Option σ) (mover : α → Option ω) (s : σ) (w : ω) : Prop :=
  ∃ a, mover a = some w ∧ (step s a).isSome

/-- Weak fairness: nobody who can always go on stands still for ever. -/
def Fair {ω : Type*} (step : σ → α → Option σ) (mover : α → Option ω) (run : ℕ → σ)
    (acts : ℕ → α) : Prop :=
  ∀ w i, ∃ j ≥ i, mover (acts j) = some w ∨ ¬ Able step mover (run j) w

section Fairness

variable {ω : Type*} {mover : α → Option ω} {run : ℕ → σ} {acts : ℕ → α}

theorem Fair.drop (h : Fair step mover run acts) (k : ℕ) :
    Fair step mover (fun i => run (k + i)) fun i => acts (k + i) := by
  intro w i
  obtain ⟨j, hj, hw⟩ := h w (k + i)
  obtain ⟨d, rfl⟩ := Nat.exists_eq_add_of_le ((Nat.le_add_right k i).trans hj)
  exact ⟨d, Nat.le_of_add_le_add_left hj, hw⟩

theorem Fair.moves (h : Fair step mover run acts) {w : ω}
    (hable : ∀ i, Able step mover (run i) w) : ∃ j, mover (acts j) = some w := by
  obtain ⟨j, -, hw | hnot⟩ := h w 0
  · exact ⟨j, hw⟩
  · exact absurd (hable j) hnot

/-- A run that ends where `a` changes nothing and nobody can go on is prolonged by `a` to a fair
infinite one. -/
theorem Run.prolong {s s' : σ} {as : List α} {a : α} (h : Run step s as s')
    (ha : step s' a = some s') (hend : ∀ w, ¬ Able step mover s' w) :
    ∃ run, run 0 = s ∧ (∀ i ≥ as.length, run i = s') ∧ Forever step run (fun i => as.getD i a) ∧
      Fair step mover run fun i => as.getD i a := by
  have hstate : ∀ i, ∃ t, Run step s (as.take i) t := by
    intro i
    rw [← List.take_append_drop i as] at h
    obtain ⟨t, ht, -⟩ := Run.append_iff.1 h
    exact ⟨t, ht⟩
  choose run hreach using hstate
  have hlast : ∀ i ≥ as.length, run i = s' := by
    intro i hi
    have hi' := hreach i
    rw [List.take_of_length_le hi] at hi'
    exact hi'.unique h
  refine ⟨run, Run.nil_iff.1 (hreach 0), hlast, fun i => ?_, fun w i => ?_⟩
  · change step (run i) (as.getD i a) = some (run (i + 1))
    rw [List.getD_eq_getElem?_getD]
    rcases Nat.lt_or_ge i as.length with hi | hi
    · have hnext := hreach (i + 1)
      rw [List.take_succ_eq_append_getElem hi] at hnext
      obtain ⟨t, ht, hstep⟩ := Run.snoc_iff.1 hnext
      rwa [List.getElem?_eq_getElem hi, Option.getD_some, (hreach i).unique ht]
    · rw [List.getElem?_eq_none hi, Option.getD_none, hlast i hi,
        hlast (i + 1) (hi.trans (Nat.le_succ i)), ha]
  · refine ⟨max i as.length, le_max_left .., Or.inr ?_⟩
    rw [hlast _ (le_max_right ..)]
    exact hend w

end Fairness

end Transition
