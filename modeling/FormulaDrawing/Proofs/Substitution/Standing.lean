import FormulaDrawing.Proofs.Substitution.Refinement

/-! Which trees still stand after substitution, replaced or not: all but those that were below a replaced
one. Each has a place of its own in the result. -/

namespace FormulaDrawing

namespace Substitution

open Drawing

variable {i : Input} {b t u : Layout} {ts : List Layout}

/-- Something else comes in the place of the tree. -/
def Verdict.Replaces (v : Verdict) : Prop := ∃ e text, v = .replace e text

mutual

/-- A tree that stays, and all below it that stand. -/
def standing (i : Input) : Layout → List Layout
  | .node a ts => .node a ts :: standingAll i ts

/-- Of a tree that is replaced nothing but its top stands. -/
def standingAll (i : Input) : List Layout → List Layout
  | [] => []
  | t :: ts =>
    (match verdict i t.contents with
      | .replace _ _ => [t]
      | _ => standing i t) ++ standingAll i ts

end

/-- What a tree below the root becomes. -/
def become (i : Input) (t : Layout) : Tree Content :=
  (verdict i t.contents).tree (kept i t.contents)

theorem standing_eq (i : Input) (t : Layout) : standing i t = t :: standingAll i t.children := by
  obtain ⟨a, ts⟩ := t
  rw [standing]
  rfl

theorem standingAll_nil (i : Input) : standingAll i [] = [] := by rw [standingAll]

theorem standingAll_of_replaces (h : (verdict i t.contents).Replaces) (ts : List Layout) :
    standingAll i (t :: ts) = t :: standingAll i ts := by
  obtain ⟨e, text, h⟩ := h
  rw [standingAll, h]
  rfl

theorem standingAll_of_not_replaces (h : ¬ (verdict i t.contents).Replaces) (ts : List Layout) :
    standingAll i (t :: ts) = t :: (standingAll i t.children ++ standingAll i ts) := by
  rw [standingAll]
  split
  next e text hv => exact absurd ⟨e, text, hv⟩ h
  next => rw [standing_eq, List.cons_append]

theorem mem_standingAll_cons : u ∈ standingAll i (t :: ts) ↔
    u = t ∨ (¬ (verdict i t.contents).Replaces ∧ u ∈ standingAll i t.children) ∨
      u ∈ standingAll i ts := by
  by_cases h : (verdict i t.contents).Replaces
  · simp [standingAll_of_replaces, h]
  · simp [standingAll_of_not_replaces, h]

theorem standingAll_sublist (i : Input) (ts : List Layout) :
    (standingAll i ts).Sublist (ts.flatMap Tree.subtrees) := by
  induction ts using Tree.inductForest with
  | nil => rw [standingAll_nil]; exact List.nil_sublist _
  | cons t ts hbelow ih =>
    rw [List.flatMap_cons, Tree.subtrees_eq, List.cons_append]
    by_cases h : (verdict i t.contents).Replaces
    · rw [standingAll_of_replaces h]
      exact (ih.trans (List.sublist_append_right _ _)).cons_cons t
    · rw [standingAll_of_not_replaces h]
      exact (hbelow.append ih).cons_cons t

theorem standing_subset (hu : u ∈ standing i b) : u ∈ b.subtrees := by
  rw [standing_eq, List.mem_cons] at hu
  exact Tree.mem_subtrees_iff.2 (hu.imp_right fun hu => (standingAll_sublist i b.children).subset hu)

theorem mem_standingAll_or (h : u ∈ ts.flatMap Tree.subtrees) : u ∈ standingAll i ts ∨
    ∃ c ∈ ts.flatMap Tree.subtrees, (verdict i c.contents).Replaces ∧
      u ∈ c.children.flatMap Tree.subtrees := by
  induction ts using Tree.inductForest with
  | nil => cases h
  | cons t ts hbelow ih =>
    rw [List.flatMap_cons, Tree.subtrees_eq, List.cons_append, List.mem_cons, List.mem_append] at h
    rw [mem_standingAll_cons, List.flatMap_cons, Tree.subtrees_eq, List.cons_append]
    rcases h with rfl | h | h
    · exact .inl (.inl rfl)
    · by_cases hv : (verdict i t.contents).Replaces
      · exact .inr ⟨t, List.mem_cons_self, hv, h⟩
      · rcases hbelow h with h | ⟨c, hc, hr, hu⟩
        · exact .inl (.inr (.inl ⟨hv, h⟩))
        · exact .inr ⟨c, List.mem_cons_of_mem _ (List.mem_append_left _ hc), hr, hu⟩
    · rcases ih h with h | ⟨c, hc, hr, hu⟩
      · exact .inl (.inr (.inr h))
      · exact .inr ⟨c, List.mem_cons_of_mem _ (List.mem_append_right _ hc), hr, hu⟩

theorem become_of_not_replaces (h : ¬ (verdict i t.contents).Replaces) :
    become i t = kept i t.contents := by
  rw [become]
  cases hv : verdict i t.contents with
  | replace e text => exact absurd ⟨e, text, hv⟩ h
  | flag w => rfl
  | keep => rfl

theorem kept_contents (i : Input) (t : Layout) : kept i t.contents =
    .node ((verdict i t.contents).label i.settings t.label.2)
      (rewrittenAll i (t.children.map Tree.contents) ++
        (t.children.map Tree.contents).filterMap fun u => (verdict i u).marker? i.settings) := by
  obtain ⟨⟨k, x⟩, ts⟩ := t
  rw [Tree.contents_node, kept]
  rfl

theorem rewrittenAll_cons (i : Input) (t : Layout) (ts : List Layout) :
    rewrittenAll i ((t :: ts).map Tree.contents) =
      become i t :: rewrittenAll i (ts.map Tree.contents) := by
  rw [List.map_cons, rewrittenAll, become]

theorem become_standingAll (i : Input) (ts : List Layout) :
    ((standingAll i ts).map (become i)).Sublist
      ((rewrittenAll i (ts.map Tree.contents)).flatMap Tree.subtrees) := by
  induction ts using Tree.inductForest with
  | nil => rw [standingAll_nil]; exact List.nil_sublist _
  | cons t ts hbelow ih =>
    rw [rewrittenAll_cons, List.flatMap_cons, Tree.subtrees_eq, List.cons_append]
    by_cases h : (verdict i t.contents).Replaces
    · rw [standingAll_of_replaces h, List.map_cons]
      exact (ih.trans (List.sublist_append_right _ _)).cons_cons _
    · rw [standingAll_of_not_replaces h, List.map_cons, List.map_append]
      refine (List.Sublist.append ?_ ih).cons_cons _
      rw [become_of_not_replaces h, kept_contents, Tree.children_node, List.flatMap_append]
      exact hbelow.trans (List.sublist_append_left _ _)

/-- What becomes of a tree that stands, the whole one included. -/
def becomeIn (i : Input) (b u : Layout) : Tree Content :=
  if u.handle = b.handle then rewritten i b.contents else become i u

theorem becomeIn_of_mem_standingAll (hn : b.handles.Nodup) (hu : u ∈ standingAll i b.children) :
    becomeIn i b u = become i u := by
  have hmem : u.handle ∈ (b.children.flatMap Tree.subtrees).map Tree.handle :=
    List.mem_map_of_mem ((standingAll_sublist i b.children).subset hu)
  rw [Tree.handles, Tree.subtrees_eq, List.map_cons, List.nodup_cons] at hn
  rw [becomeIn, if_neg (ne_of_mem_of_not_mem hmem hn.1)]

theorem becomeIn_standing (hn : b.handles.Nodup) : (standing i b).map (becomeIn i b) =
    rewritten i b.contents :: (standingAll i b.children).map (become i) := by
  rw [standing_eq, List.map_cons, becomeIn, if_pos rfl,
    List.map_congr_left fun u hu => becomeIn_of_mem_standingAll hn hu]

theorem becomeIn_sublist (hn : b.handles.Nodup) : ((standing i b).map (becomeIn i b)).Sublist
    (rewritten i b.contents).subtrees := by
  have hkept : ((standingAll i b.children).map (become i)).Sublist
      ((kept i b.contents).children.flatMap Tree.subtrees) := by
    rw [kept_contents, Tree.children_node, List.flatMap_append]
    exact (become_standingAll i b.children).trans (List.sublist_append_left _ _)
  rw [becomeIn_standing hn, Tree.subtrees_eq]
  refine (hkept.trans ?_).cons_cons _
  unfold rewritten
  dsimp only
  split
  · rw [Tree.children_node, List.flatMap_cons]
    exact List.sublist_append_right _ _
  · exact .refl _

theorem exists_injOn_of_map_eq {α β γ : Type} {us : List α} {vs : List β} {f : α → γ} {g : β → γ}
    {p : α → Handle} {q : β → Handle} (h : us.map f = vs.map g) (hus : (us.map p).Nodup)
    (hvs : (vs.map q).Nodup) : ∃ place : Handle → Handle, Set.InjOn place {x | x ∈ us.map p} ∧
      ∀ u ∈ us, ∃ v ∈ vs, q v = place (p u) ∧ g v = f u := by
  induction us generalizing vs with
  | nil => exact ⟨id, Set.injOn_id _, nofun⟩
  | cons u us ih =>
    obtain ⟨v, vs, rfl, hv, htail⟩ := List.map_eq_cons_iff.1 h.symm
    rw [List.map_cons, List.nodup_cons] at hus hvs
    obtain ⟨place, hinj, hplace⟩ := ih htail.symm hus.2 hvs.2
    -- The first handle is new to both lists, so the place of the others is kept.
    set next := Function.update place (p u) (q v)
    have hfirst : next (p u) = q v := Function.update_self ..
    have hrest : ∀ x ∈ us.map p, next x = place x := fun x hx =>
      Function.update_of_ne (ne_of_mem_of_not_mem hx hus.1) ..
    have hnew : ∀ x ∈ us.map p, next x ≠ next (p u) := by
      intro x hx he
      obtain ⟨w, hw, rfl⟩ := List.mem_map.1 hx
      obtain ⟨z, hz, hzw, -⟩ := hplace w hw
      rw [hrest _ hx, ← hzw, hfirst] at he
      exact hvs.1 (he ▸ List.mem_map_of_mem hz)
    refine ⟨next, fun x hx y hy hxy => ?_, List.forall_mem_cons.2 ⟨?_, fun w hw => ?_⟩⟩
    · rcases List.mem_cons.1 hx with rfl | hx <;> rcases List.mem_cons.1 hy with rfl | hy
      · rfl
      · exact absurd hxy.symm (hnew y hy)
      · exact absurd hxy (hnew x hx)
      · rw [hrest x hx, hrest y hy] at hxy
        exact hinj hx hy hxy
    · exact ⟨v, List.mem_cons_self, hfirst.symm, hv⟩
    · obtain ⟨z, hz, hzw, hgz⟩ := hplace w hw
      exact ⟨z, List.mem_cons_of_mem _ hz, by rw [hzw, hrest _ (List.mem_map_of_mem hw)], hgz⟩

/-- Every tree that stands has a place of its own in the result, where it is found as what it has become. -/
theorem exists_places {d : Drawing} (hb : d.Laid b) (i : Input) :
    ∃ b', (apply i d).1.Laid b' ∧
      ∃ place : Handle → Handle, Set.InjOn place {x | x ∈ (standing i b).map Tree.handle} ∧
        ∀ u ∈ standing i b, ∃ v ∈ b'.subtrees, v.handle = place u.handle ∧
          v.contents = becomeIn i b u := by
  obtain ⟨b', hb', hshows⟩ := shows_apply hb i
  have hsublist := becomeIn_sublist (i := i) hb.nodup
  rw [← hshows, Tree.subtrees_contents] at hsublist
  obtain ⟨vs, hvs, hmap⟩ := List.sublist_map_iff.1 hsublist
  have hus : ((standing i b).map Tree.handle).Nodup := by
    refine hb.nodup.sublist (List.Sublist.map _ ?_)
    rw [standing_eq, Tree.subtrees_eq]
    exact (standingAll_sublist i b.children).cons_cons b
  obtain ⟨place, hinj, hplace⟩ :=
    exists_injOn_of_map_eq hmap hus (hb'.nodup.sublist (hvs.map Tree.handle))
  refine ⟨b', hb', place, hinj, fun u hu => ?_⟩
  obtain ⟨v, hv, he, hc⟩ := hplace u hu
  exact ⟨v, hvs.subset hv, he, hc⟩

end Substitution

end FormulaDrawing
