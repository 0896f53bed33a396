import FormulaDrawing.Proofs.Artifact.Archive
import FormulaDrawing.Proofs.Artifact.Folder

/-! What is left of what was stored. A file is in the archive exactly if it was stored for some context and
has been neither written over nor removed with its context since. -/

namespace FormulaDrawing.Artifact.Archive

variable {context context' n file : String} {content : ByteArray} {f : String × ByteArray} {o : Operation}
  {operations : List Operation} {a : Archive}

section Operations

/-- The operation is accepted and stores the file for the context. -/
def Operation.Stores : Operation → String → String × ByteArray → Prop
  | .put owner n document image, context, f =>
    owner = context ∧ check owner n = .ok () ∧ f ∈ [(documentFile n, document), (imageFile n, image)]
  | .removeContext _, _, _ => False

/-- The operation does away with what was stored for the context in the file. -/
def Operation.Drops (o : Operation) (context file : String) : Prop :=
  o = .removeContext context ∨ ∃ content, o.Stores context (file, content)

theorem Operation.Stores.eq_put (h : o.Stores context f) : ∃ n document image,
    o = .put context n document image ∧ check context n = .ok () ∧
      f ∈ [(documentFile n, document), (imageFile n, image)] := by
  cases o with
  | put owner n document image =>
    obtain ⟨rfl, hn, hf⟩ := h
    exact ⟨n, document, image, rfl, hn, hf⟩
  | removeContext => exact h.elim

theorem Operation.Stores.named (h : o.Stores context f) : ∃ n,
    check context n = .ok () ∧ f.1 ∈ [documentFile n, imageFile n] := by
  obtain ⟨n, document, image, -, hn, hf⟩ := h.eq_put
  exact ⟨n, hn, List.mem_map_of_mem (f := Prod.fst) hf⟩

theorem stem?_of_mem (h : file ∈ [documentFile n, imageFile n]) : stem? file = some n := by
  rcases List.mem_pair.1 h with rfl | rfl
  · exact stem?_documentFile n
  · exact stem?_imageFile n

theorem Operation.Stores.belongsTo_iff (h : o.Stores context f) :
    belongsTo f.1 context' = true ↔ context' = context := by
  obtain ⟨n, hn, hf⟩ := h.named
  obtain ⟨-, template, hparts, -⟩ := check_eq_ok_iff.1 hn
  rw [Artifact.belongsTo_iff, stem?_of_mem hf]
  simp [hparts, eq_comm]

theorem Operation.stores_document_iff (o : Operation) (context n : String) :
    (∃ content, o.Stores context (documentFile n, content)) ↔
      ∃ content, o.Stores context (imageFile n, content) := by
  cases o with
  | put owner m document image =>
    simp [Operation.Stores, documentFile_ne_imageFile, (documentFile_ne_imageFile _ _).symm,
      documentFile_injective.eq_iff, imageFile_injective.eq_iff]
  | removeContext => exact Iff.rfl

end Operations

section History

/-- Stored for the context, and not done away with since. -/
def StoredFor (operations : List Operation) (context : String) (f : String × ByteArray) : Prop :=
  ∃ earlier o later, operations = earlier ++ o :: later ∧ o.Stores context f ∧
    ∀ o' ∈ later, ¬ o'.Drops context f.1

theorem not_storedFor_nil : ¬ StoredFor [] context f := by
  rintro ⟨earlier, o, later, h, -⟩
  simp at h

theorem storedFor_append_iff : StoredFor (operations ++ [o]) context f ↔
    o.Stores context f ∨ (StoredFor operations context f ∧ ¬ o.Drops context f.1) := by
  constructor
  · rintro ⟨earlier, o', later, h, hstores, hlater⟩
    rcases List.eq_nil_or_concat' later with rfl | ⟨later, last, rfl⟩
    · obtain ⟨-, rfl⟩ := List.append_singleton_inj.1 h
      exact .inl hstores
    · rw [← List.cons_append, ← List.append_assoc] at h
      obtain ⟨rfl, rfl⟩ := List.append_singleton_inj.1 h
      exact .inr ⟨⟨earlier, o', later, rfl, hstores, fun x hx => hlater x (List.mem_append_left _ hx)⟩,
        hlater o (by simp)⟩
  · rintro (hstores | ⟨⟨earlier, o', later, rfl, hstores, hlater⟩, hlast⟩)
    · exact ⟨operations, o, [], rfl, hstores, nofun⟩
    · refine ⟨earlier, o', later ++ [o], by simp, hstores, fun x hx => ?_⟩
      rcases List.mem_append.1 hx with hx | hx
      · exact hlater x hx
      · exact List.mem_singleton.1 hx ▸ hlast

theorem StoredFor.stores (h : StoredFor operations context f) : ∃ o : Operation, o.Stores context f := by
  obtain ⟨-, o, -, -, ho, -⟩ := h
  exact ⟨o, ho⟩

theorem storedFor_document_iff (operations : List Operation) (context n : String) :
    (∃ content, StoredFor operations context (documentFile n, content)) ↔
      ∃ content, StoredFor operations context (imageFile n, content) := by
  have hdrops (o : Operation) : o.Drops context (documentFile n) ↔ o.Drops context (imageFile n) :=
    or_congr Iff.rfl (o.stores_document_iff context n)
  constructor
  · rintro ⟨content, earlier, o, later, rfl, ho, hlater⟩
    obtain ⟨content', ho⟩ := (o.stores_document_iff context n).1 ⟨content, ho⟩
    exact ⟨content', earlier, o, later, rfl, ho, fun x hx hd => hlater x hx ((hdrops x).2 hd)⟩
  · rintro ⟨content, earlier, o, later, rfl, ho, hlater⟩
    obtain ⟨content', ho⟩ := (o.stores_document_iff context n).2 ⟨content, ho⟩
    exact ⟨content', earlier, o, later, rfl, ho, fun x hx hd => hlater x hx ((hdrops x).1 hd)⟩

end History

section Contents

theorem Reachable.after_removal (h : a.Reachable) (context : String) :
    a.after (.removeContext context) = a.without context := by
  cases hc : checkId context with
  | error failure =>
    rw [h.sound.without_eq_self (by simp [hc])]
    simp only [Archive.after, store, change, StateT.run, removeContext_eq, hc, Except.map]
  | ok => exact after_removeContext hc

theorem after_put_of_error {failure : Failure} (h : check context n = .error failure)
    (a : Archive) (document image : ByteArray) : a.after (.put context n document image) = a := by
  simp only [Archive.after, store, change, StateT.run, put_eq, h, Except.map]

theorem get?_after_iff (ha : a.Reachable)
    (h : ∀ content, a.get? file = some content ↔ ∃ context, StoredFor operations context (file, content)) :
    (a.after o).get? file = some content ↔
      ∃ context, StoredFor (operations ++ [o]) context (file, content) := by
  simp only [storedFor_append_iff]
  cases o with
  | put owner n document image =>
    cases hcheck : check owner n with
    | error failure =>
      have hnone : ∀ context f, ¬ (Operation.put owner n document image).Stores context f :=
        fun context f hs => by simp [Operation.Stores, hcheck] at hs
      rw [after_put_of_error hcheck, h]
      simp [hnone, Operation.Drops]
    | ok =>
      have hnodup : ([(documentFile n, document), (imageFile n, image)].map (·.1)).Nodup := by
        simp [documentFile_ne_imageFile]
      rw [after_put hcheck, get?_insertAll hnodup]
      cases hl : [(documentFile n, document), (imageFile n, image)].lookup file with
      | some found =>
        have hfound := (mem_iff_lookup hnodup).2 hl
        have hstores : (Operation.put owner n document image).Stores owner (file, found) :=
          ⟨rfl, hcheck, hfound⟩
        rw [Option.some_or, Option.some.injEq]
        constructor
        · rintro rfl
          exact ⟨owner, .inl hstores⟩
        · rintro ⟨context, hs | ⟨hs, hkept⟩⟩
          · exact Option.some.inj (hl.symm.trans ((mem_iff_lookup hnodup).1 hs.2.2))
          · -- A file of that name belongs to no other context, so that it was written over.
            obtain ⟨o, ho⟩ := hs.stores
            obtain rfl : owner = context := ho.belongsTo_iff.1 (hstores.belongsTo_iff.2 rfl)
            exact absurd (.inr ⟨found, hstores⟩) hkept
      | none =>
        have hnone : ∀ context content,
            ¬ (Operation.put owner n document image).Stores context (file, content) :=
          fun context content hs => by simp [(mem_iff_lookup hnodup).1 hs.2.2] at hl
        rw [Option.none_or, h]
        simp [hnone, Operation.Drops]
  | removeContext owner =>
    rw [ha.after_removal, get?_without]
    constructor
    · intro hget
      split at hget
      next => cases hget
      next hb =>
      obtain ⟨context, hs⟩ := (h content).1 hget
      obtain ⟨o, ho⟩ := hs.stores
      refine ⟨context, .inr ⟨hs, ?_⟩⟩
      rintro (heq | ⟨-, ⟨⟩⟩)
      cases heq
      exact hb (ho.belongsTo_iff.2 rfl)
    · rintro ⟨context, hs | ⟨hs, hkept⟩⟩
      · exact hs.elim
      · obtain ⟨o, ho⟩ := hs.stores
        rw [if_neg, h]
        · exact ⟨context, hs⟩
        · intro hb
          obtain rfl := ho.belongsTo_iff.1 hb
          exact hkept (.inl rfl)

theorem get?_foldl_after_iff (operations : List Operation) (file : String) (content : ByteArray) :
    (operations.foldl Archive.after {}).get? file = some content ↔
      ∃ context, StoredFor operations context (file, content) := by
  induction operations using List.reverseRecOn generalizing content with
  | nil => simp [not_storedFor_nil, get?]
  | append_singleton operations o ih =>
    rw [List.foldl_append, List.foldl_cons, List.foldl_nil]
    exact get?_after_iff ⟨operations, rfl⟩ ih

end Contents

section Kept

/-- What can be told from the history of an archive. -/
structure Kept (operations : List Operation) (a : Archive) : Prop where
  contents : ∀ file content,
    a.get? file = some content ↔ ∃ context, StoredFor operations context (file, content)
  listed : ∀ file, file ∈ a.names ↔ ∃ content, a.get? file = some content
  named : ∀ context f, StoredFor operations context f → ∃ template,
    checkId template = .ok () ∧ checkId context = .ok () ∧
      f.1 ∈ [documentFile (name template context), imageFile (name template context)]
  paired : ∀ n, documentFile n ∈ a.names ↔ imageFile n ∈ a.names
  plain : ∀ file ∈ a.names, Plain file.toList
  accepted : ∀ context n document image,
    (∃ location b, (store.put context n document image).run a = (.ok location, b)) ↔
      check context n = .ok ()
  refused : ∀ context n document image failure b,
    (store.put context n document image).run a = (.error failure, b) → b = a
  refusedRemoval : ∀ context failure b,
    (store.removeContext context).run a = (.error failure, b) → b = a
  removed : ∀ context count b, (store.removeContext context).run a = (.ok count, b) →
    ∃ gone : List String, gone.Nodup ∧ gone.length = count ∧
      (∀ file, file ∈ gone ↔ ∃ content, StoredFor operations context (file, content)) ∧
      ∀ file, b.get? file = if file ∈ gone then none else a.get? file
  cleared : ∀ context, ∀ file ∈ ((store.removeContext context).run a).2.names,
    belongsTo file context = false

theorem Reachable.mem_names_iff (h : a.Reachable) :
    file ∈ a.names ↔ ∃ content, a.get? file = some content := by
  simp only [names, get?, ← mem_iff_lookup h.sound.ascending.nodup]
  simp

theorem StoredFor.named (h : StoredFor operations context f) : ∃ n,
    check context n = .ok () ∧ f.1 ∈ [documentFile n, imageFile n] := by
  obtain ⟨o, ho⟩ := h.stores
  exact ho.named

theorem belongsTo_iff_storedFor (hmem : file ∈ (operations.foldl Archive.after {}).names) :
    belongsTo file context = true ↔ ∃ content, StoredFor operations context (file, content) := by
  have hreachable : (operations.foldl Archive.after {}).Reachable := ⟨operations, rfl⟩
  obtain ⟨content, hget⟩ := hreachable.mem_names_iff.1 hmem
  obtain ⟨owner, hs⟩ := (get?_foldl_after_iff operations file content).1 hget
  obtain ⟨o, ho⟩ := hs.stores
  constructor
  · intro hb
    exact ⟨content, ho.belongsTo_iff.1 hb ▸ hs⟩
  · rintro ⟨content', hs'⟩
    obtain ⟨o', ho'⟩ := hs'.stores
    exact ho'.belongsTo_iff.2 rfl

theorem run_put (a : Archive) (context n : String) (document image : ByteArray) :
    (store.put context n document image).run a =
      ((check context n).map fun _ => ⟨context, documentFile n, imageFile n⟩,
        a.after (.put context n document image)) := by
  simp only [Archive.after, store, change, StateT.run, put_eq]
  cases check context n <;> rfl

theorem run_removeContext (a : Archive) (context : String) :
    (store.removeContext context).run a =
      ((checkId context).map fun _ => (a.files.filter fun f => belongsTo f.1 context).length,
        a.after (.removeContext context)) := by
  simp only [Archive.after, store, change, StateT.run, removeContext_eq]
  cases checkId context <;> rfl

theorem removed_of_run {count : Nat} {b : Archive}
    (h : (store.removeContext context).run (operations.foldl Archive.after {}) = (.ok count, b)) :
    ∃ gone : List String, gone.Nodup ∧ gone.length = count ∧
      (∀ file, file ∈ gone ↔ ∃ content, StoredFor operations context (file, content)) ∧
      ∀ file, b.get? file =
        if file ∈ gone then none else (operations.foldl Archive.after {}).get? file := by
  have hreachable : (operations.foldl Archive.after {}).Reachable := ⟨operations, rfl⟩
  rw [run_removeContext, Prod.mk.injEq, hreachable.after_removal] at h
  obtain ⟨hcount, rfl⟩ := h
  obtain ⟨-, -, hcount⟩ := map_eq_ok_iff.1 hcount
  have hgone (file : String) :
      file ∈ (operations.foldl Archive.after {}).names.filter (belongsTo · context) ↔
      ∃ content, StoredFor operations context (file, content) := by
    rw [List.mem_filter]
    constructor
    · rintro ⟨hmem, hb⟩
      exact (belongsTo_iff_storedFor hmem).1 hb
    · rintro ⟨content, hs⟩
      have hmem := hreachable.mem_names_iff.2 ⟨content, (get?_foldl_after_iff ..).2 ⟨context, hs⟩⟩
      exact ⟨hmem, (belongsTo_iff_storedFor hmem).2 ⟨content, hs⟩⟩
  refine ⟨(operations.foldl Archive.after {}).names.filter (belongsTo · context),
    hreachable.sound.ascending.nodup.filter _, ?_, hgone, fun file => ?_⟩
  · rw [← hcount, names, List.filter_map, List.length_map]
    rfl
  · rw [get?_without]
    by_cases hmem : file ∈ (operations.foldl Archive.after {}).names
    · simp [hmem]
    · have hnone : (operations.foldl Archive.after {}).get? file = none := by
        rw [Option.eq_none_iff_forall_ne_some]
        exact fun content hget => hmem (hreachable.mem_names_iff.2 ⟨content, hget⟩)
      simp [hnone]

theorem kept_foldl_after (operations : List Operation) :
    Kept operations (operations.foldl Archive.after {}) := by
  have hreachable : (operations.foldl Archive.after {}).Reachable := ⟨operations, rfl⟩
  have hcontents := get?_foldl_after_iff operations
  have hlisted (file : String) : file ∈ (operations.foldl Archive.after {}).names ↔
      ∃ context content, StoredFor operations context (file, content) := by
    rw [hreachable.mem_names_iff]
    simp only [hcontents]
    exact exists_comm
  exact {
    contents := hcontents
    listed := fun _ => hreachable.mem_names_iff
    named := fun context f hs => by
      obtain ⟨n, hn, hf⟩ := hs.named
      obtain ⟨hc, template, hparts, ht⟩ := check_eq_ok_iff.1 hn
      exact ⟨template, ht, hc, eq_name_of_parts? hparts ▸ hf⟩
    paired := fun n => by
      rw [hlisted, hlisted]
      exact exists_congr fun context => storedFor_document_iff operations context n
    plain := fun file hmem => by
      obtain ⟨context, content, hs⟩ := (hlisted file).1 hmem
      obtain ⟨n, hn, hf⟩ := hs.named
      exact plain_of_check hn hf
    accepted := fun context n document image => by
      rw [run_put]
      cases check context n with
      | error => exact ⟨nofun, nofun⟩
      | ok => exact ⟨fun _ => rfl, fun _ => ⟨_, _, rfl⟩⟩
    refused := fun context n document image failure b h => by
      rw [run_put] at h
      cases hcheck : check context n with
      | error => rw [after_put_of_error hcheck] at h; exact (congrArg Prod.snd h).symm
      | ok => rw [hcheck] at h; cases h
    refusedRemoval := fun context failure b h => by
      rw [run_removeContext] at h
      cases hcheck : checkId context with
      | error =>
        rw [hreachable.after_removal, hreachable.sound.without_eq_self (by simp [hcheck])] at h
        exact (congrArg Prod.snd h).symm
      | ok => rw [hcheck] at h; cases h
    removed := fun _ _ _ => removed_of_run
    cleared := fun context file hmem => by
      rw [run_removeContext, hreachable.after_removal, names, without] at hmem
      obtain ⟨f, hf, rfl⟩ := List.mem_map.1 hmem
      simpa using (List.mem_filter.1 hf).2 }

/-- After whatever operations, the archive holds just what was stored and kept, and a folder would have
kept it in place. -/
theorem kept_of_history (operations : List Operation) :
    Kept operations (operations.foldl Archive.after {}) ∧
    ∀ root context n document image, Folder.Contains root context n document image :=
  ⟨kept_foldl_after operations, Folder.contains⟩

end Kept

end FormulaDrawing.Artifact.Archive
