import FormulaDrawing.Proofs.Template.Registry

/-! Lists of declarations that are merged one after another. Of each list only what has a new key is added:
that is its share. -/

namespace FormulaDrawing

variable {known ds : List Declaration} {d : Declaration} {x : Extraction} {k : String × String × String}

section Unlisted

/-- Those whose keys are new when they are merged one after another. -/
def unlisted (known : List Declaration) : List Declaration → List Declaration
  | [] => []
  | d :: ds => if d.listed known then unlisted known ds else d :: unlisted (known ++ [d]) ds

theorem Declaration.listed_iff_mem_keys : d.listed ds = true ↔ d.key ∈ ds.map Declaration.key := by
  rw [listed_iff, List.mem_map]

theorem unlisted_sublist (known ds : List Declaration) : (unlisted known ds).Sublist ds := by
  induction ds generalizing known with
  | nil => exact List.Sublist.slnil
  | cons d ds ih =>
    rw [unlisted]
    split
    · exact (ih known).cons d
    · exact (ih (known ++ [d])).cons_cons d

theorem mem_keys_unlisted : k ∈ (known ++ unlisted known ds).map Declaration.key ↔
    k ∈ known.map Declaration.key ∨ k ∈ ds.map Declaration.key := by
  induction ds generalizing known with
  | nil => simp [unlisted]
  | cons d ds ih =>
    rw [unlisted, List.map_cons, List.mem_cons]
    split
    next h =>
      have hold : k = d.key → k ∈ known.map Declaration.key :=
        fun hk => hk ▸ Declaration.listed_iff_mem_keys.1 h
      rw [ih]
      tauto
    next =>
      have hpush : known ++ d :: unlisted (known ++ [d]) ds =
          (known ++ [d]) ++ unlisted (known ++ [d]) ds := by simp
      rw [hpush, ih, List.map_append, List.mem_append, List.map_singleton, List.mem_singleton, or_assoc]

theorem nodup_unlisted (known ds : List Declaration) :
    ((unlisted known ds).map Declaration.key).Nodup ∧
      ∀ d ∈ unlisted known ds, d.key ∉ known.map Declaration.key := by
  induction ds generalizing known with
  | nil => exact ⟨List.nodup_nil, nofun⟩
  | cons d ds ih =>
    rw [unlisted]
    split
    next => exact ih known
    next h =>
      obtain ⟨hnodup, hnew⟩ := ih (known ++ [d])
      refine ⟨List.nodup_cons.2 ⟨fun hmem => ?_, hnodup⟩, fun e he hmem => ?_⟩
      · obtain ⟨e, he, hkey⟩ := List.mem_map.1 hmem
        exact hnew e he (by simp [hkey])
      · rcases List.mem_cons.1 he with rfl | he
        · exact h (Declaration.listed_iff_mem_keys.2 hmem)
        · exact hnew e he (by rw [List.map_append]; exact List.mem_append_left _ hmem)

theorem foldl_merge_eq (known : List Declaration) (x : Extraction) (ds : List Declaration) :
    (ds.foldl Registry.merge (known, x)).1 = known ++ unlisted known ds ∧
      (ds.foldl Registry.merge (known, x)).2.added = x.added + (unlisted known ds).length := by
  induction ds generalizing known x with
  | nil => simp [unlisted]
  | cons d ds ih =>
    rw [List.foldl_cons, Registry.merge, unlisted]
    by_cases h : d.listed known = true
    · rw [if_pos h, if_pos h]
      exact ih known _
    · rw [if_neg h, if_neg h]
      obtain ⟨hknown, hadded⟩ := ih (known ++ [d]) { x with added := x.added + 1 }
      refine ⟨by rw [hknown]; simp, ?_⟩
      rw [hadded, List.length_cons, Nat.add_assoc, Nat.add_comm 1]

end Unlisted

namespace Extraction

theorem added_take (s : Settings) (d : Drawing) (x : Extraction) (h : Handle) :
    (take s d x h).added = x.added := by
  unfold take
  split
  · rfl
  · rfl
  · dsimp only
    split <;> rfl

theorem added_ofDrawing (s : Settings) (template : String) (d : Drawing) :
    (ofDrawing s template d).added = 0 := by
  have hfold (hs : List Handle) (x : Extraction) : (hs.foldl (take s d) x).added = x.added := by
    induction hs generalizing x with
    | nil => rfl
    | cons h hs ih => rw [List.foldl_cons, ih, added_take]
  exact hfold _ _

end Extraction

section Shares

variable {ι : Type} {offered shares : ι → List Declaration} {order : List ι} {i : ι}

/-- Who has added what, if these calls had their turns in this order. -/
structure Shares (known : List Declaration) (offered : ι → List Declaration) (order : List ι)
    (shares : ι → List Declaration) : Prop where
  nodup : order.Nodup
  distinct : ((order.flatMap shares).map Declaration.key).Nodup
  fresh : ∀ d ∈ order.flatMap shares, d.key ∉ known.map Declaration.key
  keys : ∀ k, k ∈ (known ++ order.flatMap shares).map Declaration.key ↔
    k ∈ known.map Declaration.key ∨ ∃ i ∈ order, k ∈ (offered i).map Declaration.key
  offered : ∀ i, (shares i).Sublist (offered i)
  idle : ∀ i ∉ order, shares i = []

theorem shares_nil (known : List Declaration) (offered : ι → List Declaration) :
    Shares known offered [] fun _ => [] where
  nodup := List.nodup_nil
  distinct := List.nodup_nil
  fresh := nofun
  keys := by simp
  offered := fun i => List.nil_sublist _
  idle := fun _ _ => rfl

theorem Shares.once (h : Shares known offered order shares)
    (hk : k ∈ (order.flatMap shares).map Declaration.key) : ∃! i, k ∈ (shares i).map Declaration.key := by
  have hdistinct := h.distinct
  rw [List.map_flatMap, List.nodup_flatMap] at hdistinct
  rw [List.map_flatMap, List.mem_flatMap] at hk
  obtain ⟨i, hi, hk⟩ := hk
  have hsymm : Std.Symm (Function.onFun List.Disjoint fun i => (shares i).map Declaration.key) :=
    ⟨fun _ _ hd => hd.symm⟩
  refine ⟨i, hk, fun j (hj : k ∈ (shares j).map Declaration.key) => ?_⟩
  have hjmem : j ∈ order := by
    by_contra hidle
    rw [h.idle j hidle] at hj
    cases hj
  by_contra hne
  exact hdistinct.2.forall hjmem hi hne hj hk

theorem Shares.share_sublist (h : Shares known offered order shares) (i : ι) :
    (shares i).Sublist (order.flatMap shares) := by
  by_cases hi : i ∈ order
  · rw [List.flatMap_def]
    exact List.sublist_flatten_of_mem (List.mem_map_of_mem hi)
  · rw [h.idle i hi]
    exact List.nil_sublist _

theorem Shares.sum_length [Fintype ι] [DecidableEq ι] (h : Shares known offered order shares) :
    ∑ i, (shares i).length = (order.flatMap shares).length := by
  calc ∑ i, (shares i).length
      = ∑ i ∈ order.toFinset, (shares i).length := by
        refine (Finset.sum_subset (Finset.subset_univ _) fun i _ hi => ?_).symm
        rw [h.idle i (by simpa using hi), List.length_nil]
    _ = (order.map fun i => (shares i).length).sum := List.sum_toFinset _ h.nodup
    _ = (order.flatMap shares).length := List.length_flatMap.symm

variable [DecidableEq ι]

theorem flatMap_update (hi : i ∉ order) (shares : ι → List Declaration) (added : List Declaration) :
    (order ++ [i]).flatMap (Function.update shares i added) = order.flatMap shares ++ added := by
  have hsame : order.flatMap (Function.update shares i added) = order.flatMap shares :=
    List.flatMap_congr fun j hj => Function.update_of_ne (fun hji : j = i => hi (hji ▸ hj)) added shares
  rw [List.flatMap_append, hsame]
  simp

theorem Shares.push (h : Shares known offered order shares) (hi : i ∉ order) :
    Shares known offered (order ++ [i])
      (Function.update shares i (unlisted (known ++ order.flatMap shares) (offered i))) := by
  obtain ⟨hnodup, hnew⟩ := nodup_unlisted (known ++ order.flatMap shares) (offered i)
  constructor
  case nodup =>
    rw [← List.concat_eq_append]
    exact h.nodup.concat hi
  case distinct =>
    rw [flatMap_update hi, List.map_append]
    refine h.distinct.append hnodup fun k hold hadded => ?_
    obtain ⟨d, hd, rfl⟩ := List.mem_map.1 hadded
    exact hnew d hd (by rw [List.map_append]; exact List.mem_append_right _ hold)
  case fresh =>
    rw [flatMap_update hi]
    intro d hd hold
    rcases List.mem_append.1 hd with hd | hd
    · exact h.fresh d hd hold
    · exact hnew d hd (by rw [List.map_append]; exact List.mem_append_left _ hold)
  case keys =>
    intro k
    rw [flatMap_update hi, ← List.append_assoc, mem_keys_unlisted, h.keys]
    simp [or_and_right, exists_or, or_assoc]
  case offered =>
    intro j
    by_cases hj : j = i
    · subst hj
      rw [Function.update_self]
      exact unlisted_sublist _ _
    · rw [Function.update_of_ne hj]
      exact h.offered j
  case idle =>
    intro j hj
    rw [List.mem_append, List.mem_singleton, not_or] at hj
    rw [Function.update_of_ne hj.2]
    exact h.idle j hj.1

end Shares

end FormulaDrawing
