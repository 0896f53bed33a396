import FormulaDrawing.Proofs.Substitution.Identifiers

/-! Whether what is reported can be seen in the drawing. The report is written before anything is
changed: it also speaks of elements that go together with one above them, and of the root, which is
never replaced. -/

namespace FormulaDrawing

open Drawing

namespace Drawing

variable {d : Drawing} {p : Option Handle} {b c : Layout}

theorem Branch.ownText (hb : d.Branch p b) : d.ownText b.handle =
    String.join (b.contents.children.filterMap (·.label.text?)) := by
  have htexts : (b.children.map Tree.handle).filterMap d.text? =
      (b.children.map Tree.contents).filterMap (·.label.text?) := by
    rw [List.filterMap_map, List.filterMap_map]
    refine List.filterMap_congr fun c hc => ?_
    rw [Function.comp_apply, Function.comp_apply, (hb.of_mem_children hc).text?,
      Tree.label_contents]
  rw [Drawing.ownText, hb.children, htexts, Tree.children_contents]

theorem elements_eq (hb : d.Laid b) : d.elements = b.handle ::
    ((b.children.flatMap Tree.subtrees).filter fun c => c.contents.element?.isSome).map
      Tree.handle := by
  rw [elements, ← hb.top, descendantElements_branch hb.branch hb.nodup]

theorem nodup_elements (hb : d.Laid b) : d.elements.Nodup := by
  have hn := hb.nodup
  rw [Tree.handles, Tree.subtrees_eq, List.map_cons] at hn
  rw [elements_eq hb]
  exact hn.sublist ((List.filter_sublist.map _).cons_cons _)

theorem mem_elements (hb : d.Laid b) (hc : c ∈ b.subtrees) (he : c.contents.element?.isSome = true) :
    c.handle ∈ d.elements := by
  rw [elements_eq hb]
  rcases Tree.mem_subtrees_iff.1 hc with rfl | hc
  · exact List.mem_cons_self
  · exact List.mem_cons_of_mem _ (List.mem_map_of_mem (List.mem_filter.2 ⟨hc, he⟩))

theorem exists_of_mem_elements (hb : d.Laid b) {h : Handle} (hh : h ∈ d.elements) :
    ∃ c ∈ b.subtrees, c.handle = h := by
  rw [elements_eq hb, List.mem_cons] at hh
  rcases hh with rfl | hh
  · exact ⟨b, b.mem_subtrees_self, rfl⟩
  · obtain ⟨c, hc, rfl⟩ := List.mem_map.1 hh
    exact ⟨c, Tree.mem_subtrees_of_below (List.mem_of_mem_filter hc), rfl⟩

end Drawing

namespace Substitution

variable {i : Input} {d : Drawing} {p : Option Handle} {b c u : Layout} {h : Handle} {e x : Element}
  {s : Settings}

section Report

/-- The element is in the drawing and is what is reported. -/
def NodeReport.Shown (n : NodeReport) (s : Settings) (d : Drawing) (h : Handle) : Prop :=
  h ∈ d.elements ∧ ∃ e id, d.element? h = some e ∧ n.id = some id ∧ e.attr? "id" = some id ∧
    (∀ text, n.outcome = .substituted text → e.name = "text" ∧ d.ownText h = text) ∧
    ∀ cause, n.outcome = .failed cause → e.HasWords s.errorClass

/-- The entries at these places of the report are shown by elements of the result, each by one of its
own. -/
def FaithfulOn (i : Input) (d : Drawing) (ks : Set Nat) : Prop :=
  ∃ place : Nat → Handle, ks.InjOn place ∧ ∀ k ∈ ks, ∀ n, (apply i d).2[k]? = some n →
    n.Shown i.settings (apply i d).1 (place k)

/-- All that is reported to be done is shown. -/
def Faithful (i : Input) (d : Drawing) : Prop :=
  FaithfulOn i d {k | ∃ n, (apply i d).2[k]? = some n ∧ n.outcome ≠ .untouched}

def outcome? (i : Input) (d : Drawing) (h : Handle) : Option Outcome :=
  (d.element? h).map fun e => (planNode i d h e).2.outcome

/-- The root is not, whatever is reported. -/
def Replaced (i : Input) (d : Drawing) (h : Handle) : Prop :=
  h ≠ d.root ∧ (outcome? i d h).any (·.isSubstituted) = true

/-- Some marked element above is replaced. -/
def Covered (i : Input) (d : Drawing) (h : Handle) : Prop :=
  ∃ k ∈ d.marked i.settings.markerClass, Replaced i d k ∧ h ∈ d.descendants k

def TakesEffect (i : Input) (d : Drawing) (k : Nat) : Prop :=
  ∃ h ∈ (d.marked i.settings.markerClass)[k]?, ¬ Covered i d h ∧
    (Replaced i d h ∨ (outcome? i d h).any (·.isFailed) = true)

instance : Decidable (Replaced i d h) := inferInstanceAs (Decidable (_ ∧ _))

instance : Decidable (Covered i d h) := inferInstanceAs (Decidable (∃ _ ∈ _, _))

instance (k : Nat) : Decidable (TakesEffect i d k) := inferInstanceAs (Decidable (∃ _ ∈ _, _))

/-- No two elements have the same identifier. -/
def DistinctIds (d : Drawing) : Prop := (d.elements.filterMap (d.attr? · "id")).Nodup

instance : Decidable (DistinctIds d) := inferInstanceAs (Decidable (List.Nodup _))

theorem getElem?_filterMap_of_isSome {α β : Type} {f : α → Option β} {l : List α}
    (h : ∀ x ∈ l, (f x).isSome = true) (k : Nat) : (l.filterMap f)[k]? = l[k]?.bind f := by
  induction l generalizing k with
  | nil => rfl
  | cons x l ih =>
    rw [List.forall_mem_cons] at h
    obtain ⟨y, hy⟩ := Option.isSome_iff_exists.1 h.1
    rw [List.filterMap_cons_some hy]
    cases k with
    | zero => exact hy.symm
    | succ k => exact ih h.2 k

theorem report_getElem? (i : Input) (d : Drawing) (k : Nat) : (apply i d).2[k]? =
    (d.marked i.settings.markerClass)[k]?.bind fun h =>
      (d.element? h).map fun e => (planNode i d h e).2 := by
  have hall : ∀ h ∈ d.marked i.settings.markerClass,
      ((d.element? h).map (planNode i d h)).isSome = true := fun h hh => by
    obtain ⟨e, he, -⟩ := Option.any_eq_true _ _ |>.1 (List.mem_filter.1 hh).2
    rw [he]
    rfl
  have hreport : (apply i d).2 = (plan i d).map (·.2) := rfl
  rw [hreport, List.getElem?_map, plan, getElem?_filterMap_of_isSome hall, Option.map_bind]
  simp only [Function.comp_def, Option.map_map]

end Report

section Verdicts

theorem report_of_verdict (hb : d.Branch p b) (hn : b.handles.Nodup) (i : Input)
    (he : b.contents.element? = some e) (hm : e.hasClass i.settings.markerClass = true) :
    match verdict i b.contents with
    | .replace x text => ∃ id name style, e.id? = some id ∧ x = replacement e id style ∧
        (planNode i d b.handle e).2 = ⟨some id, some name, .substituted text⟩
    | .flag _ => ∃ id name cause, e.id? = some id ∧
        (planNode i d b.handle e).2 = ⟨some id, some name, .failed cause⟩
    | .keep => (planNode i d b.handle e).2.outcome = .untouched := by
  unfold planNode verdict
  rw [formulaName?_branch hb hn, he]
  simp only [hm, if_true]
  cases b.contents.formulaName? i.settings.labels with
  | none => rfl
  | some name =>
    cases e.id? with
    | none => rfl
    | some id =>
      dsimp only
      cases i.evaluations.find? name with
      | none => rfl
      | some result =>
        cases result with
        | ok v => exact ⟨id, name, _, rfl, newText_eq i name id he, rfl⟩
        | error cause => exact ⟨id, name, cause, rfl, rfl⟩

theorem marked_of_replaces {t : Tree Content} (h : (verdict i t).Replaces) :
    ∃ e, t.element? = some e ∧ e.hasClass i.settings.markerClass = true := by
  obtain ⟨x, text, h⟩ := h
  unfold verdict at h
  split at h
  · cases h
  next e he =>
    split at h
    next hm => exact ⟨e, he, hm⟩
    · cases h

theorem mem_marked (hb : d.Laid b) (hc : c ∈ b.subtrees) (he : c.contents.element? = some e)
    (hm : e.hasClass s.markerClass = true) : c.handle ∈ d.marked s.markerClass := by
  obtain ⟨q, hq⟩ := hb.branch.of_mem_subtrees hc
  refine List.mem_filter.2 ⟨mem_elements hb hc (by rw [he]; rfl), ?_⟩
  rw [hq.element?_eq, he]
  exact hm

theorem exists_of_mem_marked (hb : d.Laid b) (hh : h ∈ d.marked s.markerClass) :
    ∃ c ∈ b.subtrees, c.handle = h ∧
      ∃ e, c.contents.element? = some e ∧ e.hasClass s.markerClass = true := by
  obtain ⟨hh, hany⟩ := List.mem_filter.1 hh
  obtain ⟨c, hc, rfl⟩ := exists_of_mem_elements hb hh
  obtain ⟨q, hq⟩ := hb.branch.of_mem_subtrees hc
  obtain ⟨e, he, hm⟩ := (Option.any_eq_true _ _).1 hany
  exact ⟨c, hc, rfl, e, hq.element?_eq ▸ he, hm⟩

theorem outcome?_branch (hb : d.Branch p b) (he : b.contents.element? = some e) :
    outcome? i d b.handle = some (planNode i d b.handle e).2.outcome := by
  rw [outcome?, hb.element?_eq, he, Option.map_some]

theorem eq_of_handle_eq (hb : d.Laid b) (hc : c ∈ b.subtrees) (hu : u ∈ b.subtrees)
    (h : c.handle = u.handle) : c = u := by
  obtain ⟨q, hq⟩ := hb.branch.of_mem_subtrees hc
  obtain ⟨r, hr⟩ := hb.branch.of_mem_subtrees hu
  exact hq.unique hr h

theorem mem_below_iff (hb : d.Laid b) :
    c ∈ b.children.flatMap Tree.subtrees ↔ c ∈ b.subtrees ∧ c.handle ≠ d.root := by
  rw [Tree.mem_subtrees_iff, ← hb.top]
  have hn := hb.nodup
  rw [Tree.handles, Tree.subtrees_eq, List.map_cons, List.nodup_cons] at hn
  constructor
  · exact fun h => ⟨.inr h, fun he => hn.1 (he ▸ List.mem_map_of_mem h)⟩
  · rintro ⟨rfl | h, hne⟩
    · exact absurd rfl hne
    · exact h

theorem replaced_iff (hb : d.Laid b) (hc : c ∈ b.subtrees) (he : c.contents.element? = some e)
    (hm : e.hasClass i.settings.markerClass = true) : Replaced i d c.handle ↔
      c.handle ≠ d.root ∧ (verdict i c.contents).Replaces := by
  obtain ⟨q, hq⟩ := hb.branch.of_mem_subtrees hc
  have hreport := report_of_verdict hq (hb.nodup.sublist (Tree.handles_sublist hc)) i he hm
  rw [Replaced, outcome?_branch hq he]
  refine and_congr_right fun _ => ?_
  cases hv : verdict i c.contents with
  | replace x text =>
    rw [hv] at hreport
    obtain ⟨id, name, style, -, -, hreport⟩ := hreport
    rw [hreport]
    exact ⟨fun _ => ⟨x, text, rfl⟩, fun _ => rfl⟩
  | flag x =>
    rw [hv] at hreport
    obtain ⟨id, name, cause, -, hreport⟩ := hreport
    rw [hreport]
    exact ⟨fun h => Bool.noConfusion h, nofun⟩
  | keep =>
    rw [hv] at hreport
    rw [hreport]
    exact ⟨fun h => Bool.noConfusion h, nofun⟩

theorem mem_descendants_iff (hb : d.Laid b) (hc : c ∈ b.subtrees) (hu : u ∈ b.subtrees) :
    u.handle ∈ d.descendants c.handle ↔ u ∈ c.children.flatMap Tree.subtrees := by
  obtain ⟨q, hq⟩ := hb.branch.of_mem_subtrees hc
  rw [descendants_branch hq (hb.nodup.sublist (Tree.handles_sublist hc))]
  refine ⟨fun h => ?_, List.mem_map_of_mem⟩
  obtain ⟨w, hw, he⟩ := List.mem_map.1 h
  have hmem := Tree.mem_subtrees_trans hc (Tree.mem_subtrees_of_below hw)
  exact eq_of_handle_eq hb hmem hu he ▸ hw

theorem mem_standing_iff (hb : d.Laid b) (hu : u ∈ b.subtrees) :
    u ∈ standing i b ↔ ¬ Covered i d u.handle := by
  rw [standing_eq, List.mem_cons]
  constructor
  · rintro hstands ⟨k, hk, hreplaced, hdesc⟩
    obtain ⟨c, hc, rfl, e, he, hm⟩ := exists_of_mem_marked hb hk
    obtain ⟨hne, hv⟩ := (replaced_iff hb hc he hm).1 hreplaced
    have hbelow := (mem_below_iff hb).2 ⟨hc, hne⟩
    rw [mem_descendants_iff hb hc hu] at hdesc
    have hnodup : (b.subtrees).Nodup := List.Nodup.of_map _ hb.nodup
    rw [Tree.subtrees_eq, List.nodup_cons] at hnodup
    rcases hstands with rfl | hstands
    · exact hnodup.1 (Tree.mem_forest_trans hbelow hdesc)
    · exact not_mem_standingAll hnodup.2 hbelow hv hdesc hstands
  · intro hcovered
    refine (Tree.mem_subtrees_iff.1 hu).imp_right fun hmem => ?_
    rcases mem_standingAll_or (i := i) hmem with hstands | ⟨c, hc, hv, hdesc⟩
    · exact hstands
    · obtain ⟨hc, hne⟩ := (mem_below_iff hb).1 hc
      obtain ⟨e, he, hm⟩ := marked_of_replaces hv
      exact absurd ⟨c.handle, mem_marked hb hc he hm, (replaced_iff hb hc he hm).2 ⟨hne, hv⟩,
        (mem_descendants_iff hb hc hu).2 hdesc⟩ hcovered

end Verdicts

section Shown

theorem shown_of_holding (hb : d.Laid b) (hc : c ∈ b.subtrees) {id name text : String} {style : Style}
    (hcontents : c.contents = .holding (replacement e id style) text) :
    NodeReport.Shown ⟨some id, some name, .substituted text⟩ s d c.handle := by
  obtain ⟨q, hq⟩ := hb.branch.of_mem_subtrees hc
  have helement : c.contents.element? = some (replacement e id style) := by
    rw [hcontents]
    rfl
  refine ⟨mem_elements hb hc (by rw [helement]; rfl), replacement e id style, id, ?_, rfl, ?_, ?_, nofun⟩
  · rw [hq.element?_eq, helement]
  · rw [replacement_eq, Element.attr?, List.cons_append, List.lookup_cons_self]
  · rintro _ ⟨⟩
    rw [hq.ownText, hcontents, replacement_eq]
    exact ⟨rfl, String.empty_append⟩

theorem shown_of_addClass (hb : d.Laid b) (hc : c ∈ b.subtrees) {id name : String}
    {cause : Expression.Failure} (hid : e.id? = some id)
    (hcontents : c.contents.element? = some (e.addClass s.errorClass)) :
    NodeReport.Shown ⟨some id, some name, .failed cause⟩ s d c.handle := by
  obtain ⟨q, hq⟩ := hb.branch.of_mem_subtrees hc
  refine ⟨mem_elements hb hc (by rw [hcontents]; rfl), _, id, hq.element?_eq.trans hcontents, rfl, ?_,
    nofun, fun _ _ => e.hasWords_addClass s.errorClass⟩
  rw [Element.attr?_addClass_of_ne (by decide)]
  exact (Option.filter_eq_some_iff.1 hid).1

theorem shown_of_becomeIn {b' v : Layout} {d' : Drawing} (hb : d.Laid b) (hb' : d'.Laid b')
    (hu : u ∈ b.subtrees) (he : u.contents.element? = some e)
    (hm : e.hasClass i.settings.markerClass = true)
    (heffect : Replaced i d u.handle ∨ (outcome? i d u.handle).any (·.isFailed) = true)
    (hv : v ∈ b'.subtrees) (hcontents : v.contents = becomeIn i b u) :
    (planNode i d u.handle e).2.Shown i.settings d' v.handle := by
  obtain ⟨q, hq⟩ := hb.branch.of_mem_subtrees hu
  have hreport := report_of_verdict hq (hb.nodup.sublist (Tree.handles_sublist hu)) i he hm
  have houtcome := outcome?_branch (i := i) hq he
  cases hverdict : verdict i u.contents with
  | replace x text =>
    rw [hverdict] at hreport
    obtain ⟨id, name, style, -, rfl, hreport⟩ := hreport
    have hne : u.handle ≠ b.handle := by
      rcases heffect with ⟨hne, -⟩ | hfailed
      · exact hb.top ▸ hne
      · rw [houtcome, hreport] at hfailed
        cases hfailed
    rw [becomeIn, if_neg hne, become, hverdict] at hcontents
    rw [hreport]
    exact shown_of_holding hb' hv hcontents
  | flag x =>
    rw [hverdict] at hreport
    obtain ⟨id, name, cause, hid, hreport⟩ := hreport
    have hkept : (kept i u.contents).element? = some (e.addClass i.settings.errorClass) := by
      rw [element?_kept_of_flag hverdict, he, Option.map_some]
    have helement : v.contents.element? = some (e.addClass i.settings.errorClass) := by
      rw [hcontents, becomeIn]
      split
      next htop =>
        obtain rfl : u = b := hq.unique hb.branch htop
        rw [element?_rewritten, hkept]
      next =>
        rw [become, hverdict]
        exact hkept
    rw [hreport]
    exact shown_of_addClass hb' hv hid helement
  | keep =>
    rw [hverdict] at hreport
    rw [Replaced, houtcome, hreport] at heffect
    rcases heffect with ⟨-, h⟩ | h <;> cases h

end Shown

theorem TakesEffect.exists_standing {k : Nat} (h : TakesEffect i d k) (hb : d.Laid b) :
    ∃ u ∈ standing i b, u ∈ b.subtrees ∧
      (d.marked i.settings.markerClass)[k]? = some u.handle ∧
      (Replaced i d u.handle ∨ (outcome? i d u.handle).any (·.isFailed) = true) ∧
      ∃ e, u.contents.element? = some e ∧ e.hasClass i.settings.markerClass = true := by
  obtain ⟨h, hk, hcovered, heffect⟩ := h
  obtain ⟨u, hu, rfl, he⟩ := exists_of_mem_marked hb (List.mem_of_getElem? hk)
  exact ⟨u, (mem_standing_iff hb hu).2 hcovered, hu, hk, heffect, he⟩

theorem faithfulOn_takesEffect (hb : d.Laid b) (i : Input) :
    FaithfulOn i d {k | TakesEffect i d k} := by
  obtain ⟨b', hb', place, hinj, hplace⟩ := exists_places hb i
  refine ⟨fun k => place (((d.marked i.settings.markerClass)[k]?).getD 0), ?_, ?_⟩
  · intro k hk l hl hkl
    obtain ⟨u, hu, -, huk, -⟩ := TakesEffect.exists_standing hk hb
    obtain ⟨w, hw, -, hwl, -⟩ := TakesEffect.exists_standing hl hb
    dsimp only at hkl
    rw [huk, hwl, Option.getD_some, Option.getD_some] at hkl
    have hsame : u.handle = w.handle :=
      hinj (List.mem_map_of_mem hu) (List.mem_map_of_mem hw) hkl
    have hnodup : (d.marked i.settings.markerClass).Nodup :=
      (nodup_elements hb).sublist List.filter_sublist
    exact (List.getElem?_inj (List.getElem?_eq_some_iff.1 huk).1 hnodup).1 (by rw [huk, hwl, hsame])
  · intro k hk n hn
    obtain ⟨u, hstands, hu, huk, heffect, e, he, hm⟩ := TakesEffect.exists_standing hk hb
    obtain ⟨v, hv, hvu, hcontents⟩ := hplace u hstands
    obtain ⟨q, hq⟩ := hb.branch.of_mem_subtrees hu
    rw [report_getElem?, huk, Option.bind_some, hq.element?_eq, he, Option.map_some] at hn
    obtain rfl := Option.some.inj hn
    dsimp only
    rw [huk, Option.getD_some, ← hvu]
    exact shown_of_becomeIn hb hb' hu he hm heffect hv hcontents

section Chance

theorem exists_standing_of_attr? {b' v : Layout} {id : String} (hb : d.Laid b)
    (hshows : b'.contents = rewritten i b.contents) (hv : v ∈ b'.subtrees)
    (hid : v.contents.attr? "id" = some id) :
    ∃ w ∈ standing i b, v.contents = becomeIn i b w ∧ w.contents.attr? "id" = some id := by
  have hmem : v.contents ∈ (rewritten i b.contents).subtrees := by
    rw [← hshows, Tree.subtrees_contents]
    exact List.mem_map_of_mem hv
  rcases becomeIn_of_mem hb.nodup hmem with hnone | ⟨w, hw, he⟩
  · rw [hid] at hnone
    cases hnone
  · refine ⟨w, hw, he, ?_⟩
    have hsame : w.handle = b.handle → w = b :=
      eq_of_handle_eq hb (standing_subset hw) b.mem_subtrees_self
    rwa [he, attr?_becomeIn hsame] at hid

theorem attr?_of_report {id : String} (hb : d.Branch p b) (hn : b.handles.Nodup)
    (he : b.contents.element? = some e) (hm : e.hasClass i.settings.markerClass = true)
    (houtcome : (planNode i d b.handle e).2.outcome ≠ .untouched)
    (hid : (planNode i d b.handle e).2.id = some id) : e.attr? "id" = some id := by
  have hreport := report_of_verdict hb hn i he hm
  have hsame : ∀ id', e.id? = some id' → some id' = some id → e.attr? "id" = some id :=
    fun id' h heq => heq ▸ (Option.filter_eq_some_iff.1 h).1
  cases hv : verdict i b.contents with
  | replace x text =>
    rw [hv] at hreport
    obtain ⟨id', name, style, hid', -, hreport⟩ := hreport
    rw [hreport] at hid
    exact hsame id' hid' hid
  | flag x =>
    rw [hv] at hreport
    obtain ⟨id', name, cause, hid', hreport⟩ := hreport
    rw [hreport] at hid
    exact hsame id' hid' hid
  | keep =>
    rw [hv] at hreport
    exact absurd hreport houtcome

theorem eq_of_attr?_id {id : String} (hb : d.Laid b) (hids : DistinctIds d) (hc : c ∈ b.subtrees)
    (hu : u ∈ b.subtrees) (hcid : c.contents.attr? "id" = some id)
    (huid : u.contents.attr? "id" = some id) : c = u := by
  have helement : ∀ t ∈ b.subtrees, t.contents.attr? "id" = some id →
      t.handle ∈ d.elements ∧ d.attr? t.handle "id" = some id := fun t ht hid => by
    obtain ⟨q, hq⟩ := hb.branch.of_mem_subtrees ht
    obtain ⟨e, he, -⟩ := Option.bind_eq_some_iff.1 hid
    exact ⟨mem_elements hb ht (by rw [he]; rfl), (hq.attr? "id").trans hid⟩
  obtain ⟨hc', hcid⟩ := helement c hc hcid
  obtain ⟨hu', huid⟩ := helement u hu huid
  by_contra hne
  have hpairwise := List.pairwise_filterMap.1 hids
  have hsymm : Std.Symm fun h k : Handle =>
      ∀ x, d.attr? h "id" = some x → ∀ y, d.attr? k "id" = some y → x ≠ y :=
    ⟨fun h k hhk x hx y hy => (hhk y hy x hx).symm⟩
  exact hpairwise.forall hc' hu' (fun he => hne (eq_of_handle_eq hb hc hu he)) id hcid id huid rfl

theorem name_of_root {v : Layout} {text : String} (hv : verdict i b.contents = .replace x text)
    (hcontents : v.contents = becomeIn i b b) : v.contents.element? = b.contents.element? := by
  rw [hcontents, becomeIn, if_pos rfl, element?_rewritten, element?_kept_of_not_flag]
  intro y hy
  rw [hv] at hy
  cases hy

theorem takesEffect_of_shown (hb : d.Laid b) (hids : DistinctIds d)
    (hroot : ∀ e ∈ d.element? d.root, e.name ≠ "text") {k : Nat} {n : NodeReport}
    (hk : (apply i d).2[k]? = some n) (hn : n.outcome ≠ .untouched)
    (hs : n.Shown i.settings (apply i d).1 h) : TakesEffect i d k := by
  obtain ⟨_, hx, hentry⟩ := Option.bind_eq_some_iff.1 ((report_getElem? i d k).symm.trans hk)
  obtain ⟨u, hu, rfl, e, he, hm⟩ := exists_of_mem_marked hb (List.mem_of_getElem? hx)
  obtain ⟨q, hq⟩ := hb.branch.of_mem_subtrees hu
  rw [hq.element?_eq, he, Option.map_some] at hentry
  obtain rfl := Option.some.inj hentry
  have hnodup := hb.nodup.sublist (Tree.handles_sublist hu)
  -- What shows the entry stands in the result under the identifier of `u`, and so it comes from `u`.
  obtain ⟨b', hb', hshows⟩ := shows_apply hb i
  obtain ⟨hh, e', id, he', hid, hattr, htext, -⟩ := hs
  obtain ⟨v, hv, rfl⟩ := exists_of_mem_elements hb' hh
  obtain ⟨r, hr⟩ := hb'.branch.of_mem_subtrees hv
  rw [hr.element?_eq] at he'
  obtain ⟨w, hw, hcontents, hwid⟩ := exists_standing_of_attr? hb hshows hv
    (by rw [Tree.attr?, he', Option.bind_some, hattr])
  have huid : u.contents.attr? "id" = some id := by
    rw [Tree.attr?, he, Option.bind_some, attr?_of_report hq hnodup he hm hn hid]
  obtain rfl := eq_of_attr?_id hb hids hu (standing_subset hw) huid hwid
  refine ⟨u.handle, hx, (mem_standing_iff hb hu).1 hw, ?_⟩
  have hreport := report_of_verdict hq hnodup i he hm
  cases hverdict : verdict i u.contents with
  | replace x text =>
    -- A root is not replaced and keeps its name, which is not that of a text.
    refine .inl ((replaced_iff hb hu he hm).2 ⟨fun htop => ?_, x, text, hverdict⟩)
    obtain rfl : u = b := hq.unique hb.branch (htop.trans hb.top.symm)
    rw [hverdict] at hreport
    obtain ⟨id', name, style, -, -, hreport⟩ := hreport
    rw [name_of_root hverdict hcontents, he] at he'
    obtain rfl := Option.some.inj he'
    exact hroot e (by rw [← hb.top, hq.element?_eq, he]; rfl) (htext text (by rw [hreport])).1
  | flag x =>
    rw [hverdict] at hreport
    obtain ⟨id', name, cause, -, hreport⟩ := hreport
    exact .inr (by rw [outcome?_branch hq he, hreport]; rfl)
  | keep =>
    rw [hverdict] at hreport
    exact absurd hreport hn

end Chance

/-- For every source that can be read, what takes effect is shown; and where identifiers are distinct
and the root is not a text, nothing else is. -/
theorem report_shown {source : String} (h : Drawing.read source = .ok d) (i : Input) :
    FaithfulOn i d {k | TakesEffect i d k} ∧
    (DistinctIds d → (∀ e ∈ d.element? d.root, e.name ≠ "text") →
      (Faithful i d ↔ ∀ k n, (apply i d).2[k]? = some n → n.outcome ≠ .untouched →
        TakesEffect i d k)) := by
  obtain ⟨b, hb, -⟩ := laid_of_read h
  obtain ⟨place, hinj, hplace⟩ := faithfulOn_takesEffect hb i
  refine ⟨⟨place, hinj, hplace⟩, fun hids hroot => ⟨?_, fun hall => ?_⟩⟩
  · rintro ⟨place, -, hplace⟩ k n hk hn
    exact takesEffect_of_shown hb hids hroot hk hn (hplace k ⟨n, hk, hn⟩ n hk)
  · have hsub : {k | ∃ n, (apply i d).2[k]? = some n ∧ n.outcome ≠ .untouched} ⊆
        {k | TakesEffect i d k} := by
      rintro k ⟨n, hk, hn⟩
      exact hall k n hk hn
    exact ⟨place, hinj.mono hsub, fun k hk => hplace k (hsub hk)⟩

/-- One of two elements is replaced and the other flagged. -/
theorem report_shown_beside :
    let source := "<svg><g class=\"formula\" id=\"a\">x</g><g class=\"formula\" id=\"b\">y</g></svg>"
    let i : Input :=
      { settings := {}, formulas := [], declarations := []
        evaluations := [("x", .ok (.text "1")), ("y", .error .overflow)] }
    ∃ d, Drawing.read source = .ok d ∧ DistinctIds d ∧ (∀ e ∈ d.element? d.root, e.name ≠ "text") ∧
      TakesEffect i d 0 ∧ TakesEffect i d 1 ∧ FaithfulOn i d {k | TakesEffect i d k} := by
  intro source i
  have hread : Drawing.read source = .ok
      { nodes := #[{ content := .element { name := "svg" }, children := [1, 3] },
          { content := .element { name := "g", attributes := [("class", "formula"), ("id", "a")] },
            parent := some 0, children := [2] },
          { content := .text "x", parent := some 1 },
          { content := .element { name := "g", attributes := [("class", "formula"), ("id", "b")] },
            parent := some 0, children := [4] },
          { content := .text "y", parent := some 3 }] } := by
    decide +kernel
  exact ⟨_, hread, by decide +kernel, by decide +kernel, by decide +kernel, by decide +kernel,
    (report_shown hread i).1⟩

theorem not_faithful_of_absent {k : Nat} {n : NodeReport} (hk : (apply i d).2[k]? = some n)
    (hn : n.outcome ≠ .untouched)
    (habsent : ∀ h ∈ (apply i d).1.elements, (apply i d).1.attr? h "id" ≠ n.id) :
    ¬ Faithful i d := by
  rintro ⟨place, -, hplace⟩
  obtain ⟨hmem, e, id, he, hid, hattr, -⟩ := hplace k ⟨n, hk, hn⟩ n hk
  refine habsent _ hmem ?_
  rw [Drawing.attr?, he, Option.bind_some, hattr, hid]

/-- Both of two elements are reported to be replaced, but one has gone together with the other. -/
theorem not_faithful_nested :
    let source := "<svg><g class=\"formula\" id=\"a\">x<text class=\"formula\" id=\"b\">y</text></g></svg>"
    let i : Input :=
      { settings := { errorStyle := false }, formulas := [], declarations := []
        evaluations := [("x", .ok (.text "1")), ("y", .ok (.text "2"))] }
    ∃ d, Drawing.read source = .ok d ∧
      (apply i d).2 = [⟨"a", "x", .substituted "1"⟩, ⟨"b", "y", .substituted "2"⟩] ∧
      ¬ Faithful i d := by
  intro source i
  have hread : Drawing.read source = .ok
      { nodes := #[{ content := .element { name := "svg" }, children := [1] },
          { content := .element { name := "g", attributes := [("class", "formula"), ("id", "a")] },
            parent := some 0, children := [2, 3] },
          { content := .text "x", parent := some 1 },
          { content := .element { name := "text", attributes := [("class", "formula"), ("id", "b")] },
            parent := some 1, children := [4] },
          { content := .text "y", parent := some 3 }] } := by
    decide +kernel
  exact ⟨_, hread, by decide +kernel, not_faithful_of_absent (k := 1)
    (n := ⟨"b", "y", .substituted "2"⟩) (by decide +kernel) nofun (by decide +kernel)⟩

end Substitution

end FormulaDrawing
