import FormulaDrawing.Proofs.Attempt
import FormulaDrawing.Proofs.Template.Declaration
import FormulaDrawing.Template.Registry

/-! What registries keep. Extraction leaves the templates as they are and only adds declarations, so that
a template whose elements are declared stays one until its source is replaced, and that comes with an
extraction of its own. -/

namespace FormulaDrawing

/-- The source can be read, and what it declares under these settings is declared. -/
def Entry.Ready (s : Settings) (x : Entry) : Prop :=
  ∃ d, Drawing.read x.template.source = .ok d ∧
    ∀ found ∈ (Extraction.ofDrawing s x.template.id d).declarations,
      found.listed x.declarations = true

/-- The template is the same, and declarations are added behind. -/
structure Entry.Grows (x y : Entry) : Prop where
  template : y.template = x.template
  declarations : x.declarations <+: y.declarations

theorem Entry.Grows.refl (x : Entry) : x.Grows x := ⟨rfl, List.prefix_rfl⟩

theorem Entry.Ready.of_grows {s : Settings} {x y : Entry} (hx : x.Ready s) (h : x.Grows y) :
    y.Ready s := by
  obtain ⟨d, hd, hall⟩ := hx
  refine ⟨d, h.template ▸ hd, fun found hf => ?_⟩
  rw [h.template] at hf
  exact Declaration.listed_of_prefix h.declarations (hall found hf)

namespace Registry

variable {r r' : Registry} {s s' : Settings} {id source : String} {t : Template} {x y : Entry}
  {found : Extraction} {d : Declaration}

/-- No identifier is taken twice, and every template is ready. -/
structure Sound (s : Settings) (r : Registry) : Prop where
  nodup : r.ids.Nodup
  ready : ∀ x ∈ r.entries, x.Ready s

/-- Entry by entry, in the same order. -/
def Grows (r r' : Registry) : Prop :=
  ∃ f : Entry → Entry, r'.entries = r.entries.map f ∧ ∀ x ∈ r.entries, x.Grows (f x)

theorem Grows.ids (h : r.Grows r') : r'.ids = r.ids := by
  obtain ⟨f, hf, hall⟩ := h
  rw [Registry.ids, hf, List.map_map]
  exact List.map_congr_left fun x hx => congrArg Template.id (hall x hx).template

theorem Sound.of_grows (hr : r.Sound s) (h : r.Grows r') : r'.Sound s where
  nodup := h.ids ▸ hr.nodup
  ready := fun y hy => by
    obtain ⟨f, hf, hall⟩ := h
    rw [hf] at hy
    obtain ⟨x, hx, rfl⟩ := List.mem_map.1 hy
    exact (hr.ready x hx).of_grows (hall x hx)

section Find

theorem find_eq_ok (h : r.find id = .ok x) : x ∈ r.entries ∧ x.template.id = id := by
  unfold find entry? at h
  split at h
  next y hy =>
    obtain rfl : y = x := Except.ok.inj h
    exact ⟨List.mem_of_find?_eq_some hy, by simpa using List.find?_some hy⟩
  next => cases h

theorem eq_of_id_eq (hn : r.ids.Nodup) (hx : x ∈ r.entries) (hy : y ∈ r.entries)
    (h : x.template.id = y.template.id) : x = y :=
  List.inj_on_of_nodup_map hn hx hy h

theorem contains_of_mem (hx : x ∈ r.entries) : r.contains x.template.id = true := by
  rw [contains, entry?, List.find?_isSome]
  exact ⟨x, hx, beq_self_eq_true _⟩

theorem find_of_mem (hn : r.ids.Nodup) (hx : x ∈ r.entries) : r.find x.template.id = .ok x := by
  obtain ⟨y, hy⟩ := Option.isSome_iff_exists.1 (contains_of_mem hx)
  have hfind : r.find x.template.id = .ok y := by rw [find, hy]
  obtain ⟨hmem, hid⟩ := find_eq_ok hfind
  rw [hfind, eq_of_id_eq hn hmem hx hid]

theorem not_mem_ids (h : ¬ r.contains id = true) : id ∉ r.ids := by
  intro hmem
  obtain ⟨x, hx, rfl⟩ := List.mem_map.1 hmem
  exact h (contains_of_mem hx)

end Find

section Modify

theorem mem_modify {f : Entry → Entry} : y ∈ (r.modify id f).entries ↔
    ∃ x ∈ r.entries, (if x.template.id = id then f x else x) = y := List.mem_map

theorem grows_modify {f : Entry → Entry}
    (hf : ∀ x ∈ r.entries, x.template.id = id → x.Grows (f x)) : r.Grows (r.modify id f) := by
  refine ⟨_, rfl, fun x hx => ?_⟩
  split
  next he => exact hf x hx he
  next => exact .refl x

theorem ids_modify {f : Entry → Entry} (hf : ∀ x, (f x).template.id = x.template.id) :
    (r.modify id f).ids = r.ids := by
  rw [ids, modify, List.map_map]
  refine List.map_congr_left fun x _ => ?_
  rw [Function.comp_apply]
  split
  · exact hf x
  · rfl

theorem entry?_modify {f : Entry → Entry} (hf : ∀ x, (f x).template.id = x.template.id)
    (r : Registry) (id k : String) :
    entry? (r.modify id f) k = if k = id then (r.entry? k).map f else r.entry? k := by
  have hsame : ((fun y : Entry => y.template.id == k) ∘ fun y =>
      if y.template.id = id then f y else y) = fun y => y.template.id == k := by
    funext y
    rw [Function.comp_apply]
    split
    · rw [hf]
    · rfl
  unfold modify entry?
  rw [List.find?_map, hsame, ← entry?]
  cases h : r.entry? k with
  | none => simp
  | some y =>
    have hy : y.template.id = k := by simpa using List.find?_some h
    rw [Option.map_some, hy]
    split <;> rfl

theorem find_modify {f : Entry → Entry} (hf : ∀ x, (f x).template.id = x.template.id)
    (hx : r.find id = .ok x) : (r.modify id f).find id = .ok (f x) := by
  rw [find, entry?_modify hf, if_pos rfl]
  unfold find at hx
  split at hx
  next y hy =>
    obtain rfl : y = x := Except.ok.inj hx
    rw [hy]
    rfl
  next => cases hx

theorem modify_congr (hn : r.ids.Nodup) (hx : r.find id = .ok x) {f g : Entry → Entry} (h : f x = g x) :
    r.modify id f = r.modify id g := by
  obtain ⟨hmem, hid⟩ := find_eq_ok hx
  rw [modify, modify, Registry.mk.injEq]
  refine List.map_congr_left fun y hy => ?_
  split
  next hy' =>
    obtain rfl := eq_of_id_eq hn hy hmem (hy'.trans hid.symm)
    exact h
  next => rfl

theorem modify_eq_self (hn : r.ids.Nodup) (hx : r.find id = .ok x) {f : Entry → Entry} (h : f x = x) :
    r.modify id f = r := by
  rw [modify_congr hn hx (g := fun y => y) h, modify]
  simp

end Modify

section Merge

theorem merge_spec (m : List Declaration × Extraction) (d : Declaration) :
    m.1 <+: (merge m d).1 ∧ d.listed (merge m d).1 = true := by
  obtain ⟨known, x⟩ := m
  unfold merge
  by_cases h : d.listed known = true
  · simp [h]
  · have hd : d.listed (known ++ [d]) = true := Declaration.listed_iff.2 ⟨d, by simp, rfl⟩
    simp [h, hd]

theorem foldl_merge_spec (ds : List Declaration) (m : List Declaration × Extraction) :
    m.1 <+: (ds.foldl merge m).1 ∧ ∀ d ∈ ds, d.listed (ds.foldl merge m).1 = true := by
  induction ds generalizing m with
  | nil => exact ⟨List.prefix_rfl, nofun⟩
  | cons d ds ih =>
    obtain ⟨hpre, hd⟩ := merge_spec m d
    obtain ⟨hrest, hds⟩ := ih (merge m d)
    rw [List.foldl_cons]
    refine ⟨hpre.trans hrest, fun e he => ?_⟩
    rcases List.mem_cons.1 he with rfl | he
    · exact Declaration.listed_of_prefix hrest hd
    · exact hds e he

end Merge

section Extract

theorem extract_cases (h : r.extract s id = .ok (r', found)) :
    ∃ x d known, r.find id = .ok x ∧ Drawing.read x.template.source = .ok d ∧
      x.declarations <+: known ∧
      (∀ f ∈ (Extraction.ofDrawing s id d).declarations, f.listed known = true) ∧
      r' = r.modify id fun e => { e with declarations := known } := by
  rw [extract, bind_eq_ok_iff] at h
  obtain ⟨x, hx, h⟩ := h
  rw [bind_eq_ok_iff] at h
  obtain ⟨d, hd, h⟩ := h
  rw [readDrawing, mapError_eq_ok_iff] at hd
  obtain ⟨hpre, hall⟩ := foldl_merge_spec (Extraction.ofDrawing s id d).declarations
    (x.declarations, Extraction.ofDrawing s id d)
  refine ⟨x, d, _, hx, hd, hpre, hall, ?_⟩
  cases h
  rfl

theorem grows_extract (hn : r.ids.Nodup) (h : r.extract s id = .ok (r', found)) : r.Grows r' := by
  obtain ⟨x, d, known, hx, -, hpre, -, rfl⟩ := extract_cases h
  obtain ⟨hmem, hid⟩ := find_eq_ok hx
  refine grows_modify fun y hy hyid => ?_
  obtain rfl := eq_of_id_eq hn hy hmem (hyid.trans hid.symm)
  exact ⟨rfl, hpre⟩

theorem sound_extract (hn : r.ids.Nodup) (hr : ∀ x ∈ r.entries, x.template.id ≠ id → x.Ready s)
    (h : r.extract s id = .ok (r', found)) : r'.Sound s := by
  have hgrows := grows_extract hn h
  obtain ⟨x, d, known, hx, hd, hpre, hall, rfl⟩ := extract_cases h
  obtain ⟨hmem, hid⟩ := find_eq_ok hx
  refine ⟨hgrows.ids ▸ hn, fun z hz => ?_⟩
  obtain ⟨y, hy, rfl⟩ := mem_modify.1 hz
  split
  next hyid =>
    obtain rfl := eq_of_id_eq hn hy hmem (hyid.trans hid.symm)
    exact ⟨d, hd, hyid ▸ hall⟩
  next hne => exact hr y hy hne

end Extract

section Operations

theorem grows_insertIfAbsent {b : Bool} (h : r.insertIfAbsent d = .ok (r', b)) : r.Grows r' := by
  rw [insertIfAbsent, bind_eq_ok_iff] at h
  obtain ⟨x, -, h⟩ := h
  split at h
  · cases h
    exact ⟨id, (List.map_id _).symm, fun x _ => .refl x⟩
  · cases h
    exact grows_modify fun x _ _ => ⟨rfl, List.prefix_append ..⟩

theorem sound_remove (hr : r.Sound s) (id : String) : (r.remove id).Sound s where
  nodup := hr.nodup.sublist (List.filter_sublist.map _)
  ready := fun x hx => hr.ready x (List.mem_of_mem_filter hx)

theorem sound_registerAndExtract (hr : r.Sound s)
    (h : r.registerAndExtract s t = .ok (r', found)) : r'.Sound s := by
  rw [registerAndExtract, bind_eq_ok_iff] at h
  obtain ⟨-, -, h⟩ := h
  rw [bind_eq_ok_iff] at h
  obtain ⟨r₁, hreg, h⟩ := h
  unfold register at hreg
  split at hreg
  · cases hreg
  next hnew =>
    cases hreg
    refine sound_extract ?_ (fun x hx hne => ?_) h
    · rw [ids, List.map_append, List.map_singleton, List.nodup_append']
      exact ⟨hr.nodup, List.nodup_singleton _, List.disjoint_singleton.2 (not_mem_ids hnew)⟩
    · rcases List.mem_append.1 hx with hx | hx
      · exact hr.ready x hx
      · rw [List.mem_singleton.1 hx] at hne
        exact absurd rfl hne

theorem sound_update (hr : r.Sound s) (h : r.update s id source = .ok (r', found)) :
    r'.Sound s := by
  rw [update, bind_eq_ok_iff] at h
  obtain ⟨-, -, h⟩ := h
  rw [bind_eq_ok_iff] at h
  obtain ⟨-, -, h⟩ := h
  have hids : (r.modify id fun e => { e with template := { e.template with source } }).ids =
      r.ids := ids_modify fun _ => rfl
  refine sound_extract ?_ (fun x hx hne => ?_) h
  · rw [hids]
    exact hr.nodup
  · obtain ⟨y, hy, rfl⟩ := mem_modify.1 hx
    split at hne
    next hid => exact absurd hid hne
    next hid =>
      rw [if_neg hid]
      exact hr.ready y hy

end Operations

section Success

theorem find_register (h : r.register t = .ok r') : r'.find t.id = .ok { template := t } := by
  unfold register at h
  split at h
  · cases h
  next hnew =>
    cases h
    have hold : r.entry? t.id = none := by simpa [contains] using hnew
    rw [find, entry?, List.find?_append, ← entry?, hold]
    simp

theorem exists_extract (hx : r.find id = .ok x) {d : Drawing}
    (hd : Drawing.read x.template.source = .ok d) (s : Settings) : ∃ p, r.extract s id = .ok p := by
  rw [extract, hx]
  dsimp only [bind, Except.bind, readDrawing]
  rw [hd]
  exact ⟨_, rfl⟩

end Success

end Registry

end FormulaDrawing
