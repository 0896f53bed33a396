import FormulaDrawing.Proofs.Markup.Tag

/-! What is sure of markup that has been read. A tag and its names are only known by the characters at
which the reader stops; quotes count where the end of the tag is looked for, and not in a name. -/

namespace FormulaDrawing.Markup

open Text

/-- What is sure of a construct that has been read. -/
def Construct.Found : Construct → Prop
  | .opening tag => beginsTag tag = true
  | .empty tag => beginsTag tag = true
  | .comment content => ¬ commentEnd <:+: content
  | _ => True

section Constructs

variable {s rest : List Char} {c : Construct}

theorem found_tagConstruct {tag : List Char} (h : beginsTag tag = true) :
    (tagConstruct tag).Found := by
  unfold tagConstruct
  split
  · rename_i front hfront
    rw [before?_eq_some_iff.1 hfront] at h
    cases front with
    | nil => cases h
    | cons c front => exact h
  · exact h

theorem found_readDeclaration (h : readDeclaration s = .ok (c, rest)) : c.Found := by
  unfold readDeclaration at h
  split at h
  · obtain ⟨content, hs, rfl⟩ := finish_eq_ok h
    obtain ⟨u, -, hu⟩ := Option.bind_eq_some_iff.1 hs
    exact not_infix_of_splitFirst? (by decide) hu
  · obtain ⟨content, -, rfl⟩ := finish_eq_ok h
    trivial
  · unfold readDoctype at h
    split at h
    · split at h
      · cases h
      · split at h
        · cases h
        · cases h
        · obtain ⟨rfl, -⟩ := Prod.mk.inj (Except.ok.inj h)
          trivial
    · cases h

theorem found_readMarkup (h : readMarkup s = .ok (c, rest)) : c.Found := by
  unfold readMarkup at h
  split at h
  · exact found_readDeclaration h
  · unfold readInstruction at h
    split at h
    · cases h
    · obtain ⟨content, -, rfl⟩ := finish_eq_ok h
      trivial
  · obtain ⟨content, -, rfl⟩ := finish_eq_ok h
    trivial
  · rename_i hdeclaration hinstruction hclosing
    obtain ⟨tag, htag, rfl⟩ := finish_eq_ok h
    refine found_tagConstruct ?_
    cases tag with
    | nil => rfl
    | cons c tag =>
      obtain rfl := tagEnd?_append htag
      have h1 : c ≠ '!' := fun hc => hdeclaration _ (by rw [hc]; rfl)
      have h2 : c ≠ '?' := fun hc => hinstruction _ (by rw [hc]; rfl)
      have h3 : c ≠ '/' := fun hc => hclosing _ (by rw [hc]; rfl)
      simp [beginsTag, h1, h2, h3]

theorem found_of_read (h : Construct.read s = .ok (c, rest)) : c.Found := by
  unfold Construct.read at h
  split at h
  · exact found_readMarkup h
  · obtain ⟨rfl, -⟩ := Prod.mk.inj (Except.ok.inj h)
    trivial

theorem found_of_mem_constructs {offset : Nat} {x : Placed} (hx : .ok x ∈ constructs offset s) :
    x.construct.Found := by
  induction offset, s using constructs.induct with
  | case1 offset =>
    rw [constructs] at hx
    cases hx
  | case2 offset c t fault further hfault =>
    rw [constructs] at hx
    split at hx
    · simp at hx
    · rename_i hread
      cases hfault.symm.trans hread
  | case3 offset c t y rest hread stop ih =>
    rw [constructs] at hx
    split at hx
    · rename_i hfault
      cases hfault.symm.trans hread
    · rename_i hread'
      obtain ⟨rfl, rfl⟩ : y = _ ∧ rest = _ := by simpa [hread] using hread'
      rcases List.mem_cons.1 hx with hx | hx
      · obtain rfl := Except.ok.inj hx
        exact found_of_read hread
      · exact ih hx

end Constructs

section Attributes

variable {seen : List WrittenAttribute} {p next : Nat} {c : Char} {s rest : List Char}
  {a : WrittenAttribute} {as : List (String × String)}

theorem of_readAttribute (h : readAttribute seen p c s = .ok (a, next, rest)) :
    a.name = c :: s.takeWhile isNameChar ∧ ∀ w ∈ seen, w.name ≠ a.name := by
  unfold readAttribute at h
  dsimp only at h
  split at h
  · split at h
    · cases h
    · rename_i hfind
      split at h
      · cases h
      · obtain ⟨rfl, -⟩ := Prod.mk.inj (Except.ok.inj h)
        refine ⟨rfl, fun w hw => ?_⟩
        simpa using List.find?_eq_none.1 hfind w hw
  · cases h

theorem of_attributesFrom (h : attributesFrom seen p s = .ok as) :
    (∀ a ∈ as, isAttributeName a.1.toList = true) ∧ (as.map Prod.fst).Nodup ∧
      ∀ w ∈ seen, ∀ a ∈ as, w.name ≠ a.1.toList := by
  -- The names seen so far are in the statement, since that is what the recursion hands down.
  induction seen, p, s using attributesFrom.induct generalizing as with
  | case1 seen p =>
    rw [attributesFrom] at h
    obtain rfl := Except.ok.inj h
    exact ⟨List.forall_mem_nil _, List.nodup_nil, fun w _ => List.forall_mem_nil _⟩
  | case2 seen p c t hgap ih =>
    rw [attributesFrom_gap hgap] at h
    exact ih h
  | case3 seen p c t hgap fault hfault =>
    rw [attributesFrom, if_neg hgap] at h
    split at h
    · cases h
    · rename_i hread
      cases hfault.symm.trans hread
  | case4 seen p c t hgap a next rest hread fault hfault =>
    rw [attributesFrom, if_neg hgap] at h
    split at h
    · cases h
    · rename_i hread'
      obtain ⟨rfl, rfl, rfl⟩ : a = _ ∧ next = _ ∧ rest = _ := by simpa [hread] using hread'
      simp [hfault] at h
  | case5 seen p c t hgap a next rest hread value hvalue ih =>
    have hgap : isGap c = false := by simpa using hgap
    rw [attributesFrom_cons hgap hread hvalue] at h
    cases hrest : attributesFrom (a :: seen) next rest with
    | error fault => rw [hrest] at h; cases h
    | ok bs =>
      rw [hrest] at h
      obtain rfl := Except.ok.inj h
      obtain ⟨hnames, hdistinct, hlater⟩ := ih hrest
      obtain ⟨hname, hearlier⟩ := of_readAttribute hread
      refine ⟨?_, ?_, ?_⟩
      · rw [List.forall_mem_cons]
        refine ⟨?_, hnames⟩
        have hall : (t.takeWhile isNameChar).all isNameChar = true := List.all_takeWhile
        rw [String.toList_ofList, hname, isAttributeName, hgap, hall]
        rfl
      · rw [List.map_cons, List.nodup_cons]
        refine ⟨fun hmem => ?_, hdistinct⟩
        obtain ⟨b, hb, heq⟩ := List.mem_map.1 hmem
        refine hlater a List.mem_cons_self b hb ?_
        rw [heq, String.toList_ofList]
      · intro w hw
        rw [List.forall_mem_cons, String.toList_ofList]
        exact ⟨hearlier w hw, hlater w (List.mem_cons_of_mem a hw)⟩

theorem isTagName_tagName {tag : List Char} (h : beginsTag tag = true) :
    isTagName (tagName tag) = true := by
  have hgaps : (tagName tag).all (!isGap ·) = true := List.all_takeWhile
  rw [isTagName, hgaps, Bool.true_and]
  cases tag with
  | nil => rfl
  | cons c tag =>
    rw [tagName, List.takeWhile_cons]
    split
    · exact h
    · rfl

theorem readTag_of_tagAttributes {tag : List Char} (hbegins : beginsTag tag = true)
    (h : tagAttributes tag = .ok as) :
    ReadTag { name := String.ofList (tagName tag), attributes := as } := by
  obtain ⟨hnames, hdistinct, -⟩ := of_attributesFrom h
  refine ⟨?_, hnames, hdistinct⟩
  rw [String.toList_ofList]
  exact isTagName_tagName hbegins

end Attributes

end FormulaDrawing.Markup
