import FormulaDrawing.Proofs.Drawing.Forest

/-! Whatever is done to the nodes of a drawing one after another, they stay a forest, as long as no node is
put below itself. Each edit changes the links of the nodes that it names and of no others. -/

namespace FormulaDrawing

open Relation

inductive Edit where
  | create (c : Content)
  | createElement (e : Element) (text : Option String)
  | append (parent child : Handle)
  | insert (parent : Handle) (index : Nat) (child : Handle)
  | replace (old new : Handle)

namespace Drawing

variable {d d₁ : Drawing} {p c old new x : Handle}

/-- The drawing afterwards. Where nothing can be replaced it is the same. -/
def after (d : Drawing) : Edit → Drawing
  | .create c => (d.create c).1
  | .createElement e text => (d.createElement e text).1
  | .append parent child => d.append parent child
  | .insert parent index child => d.insert parent index child
  | .replace old new => (d.replace? old new).getD d

def link? (d : Drawing) : Edit → Option (Handle × Handle)
  | .create _ | .createElement _ none => none
  | .createElement _ (some _) => some (d.nodes.size, d.nodes.size + 1)
  | .append parent child | .insert parent _ child => some (parent, child)
  | .replace old new => (d.parent? old).map (·, new)

/-- Both are nodes of the drawing, the second is not the root, and it does not contain the first. -/
structure MayHold (d : Drawing) (p c : Handle) : Prop where
  parent : p < d.nodes.size
  child : c < d.nodes.size
  inner : c ≠ d.root
  apart : ¬ d.Contains c p

def Admits (d : Drawing) : Edit → Prop
  | .create _ | .createElement _ _ => True
  | .append parent child | .insert parent _ child => d.MayHold parent child
  | .replace old new => ∀ p, d.parent? old = some p → new ≠ old ∧ d.MayHold p new

def Step (d d₁ : Drawing) : Prop := ∃ e, d.Admits e ∧ d.after e = d₁

section Create

theorem parent?_create (d : Drawing) (a : Content) (x : Handle) :
    (d.create a).1.parent? x = d.parent? x := by
  rw [parent?, node?_create, parent?]
  split
  next hx => rw [hx, node?, Array.getElem?_eq_none le_rfl]; rfl
  next => rfl

theorem children_create (d : Drawing) (a : Content) (x : Handle) :
    (d.create a).1.children x = d.children x := by
  rw [children, node?_create, children]
  split
  next hx => rw [hx, node?, Array.getElem?_eq_none le_rfl]; rfl
  next => rfl

theorem Forest.create (hd : d.Forest) (a : Content) : (d.create a).1.Forest :=
  hd.congr rfl (by rw [size_create]; exact Nat.le_succ _) (parent?_create d a) (children_create d a)

end Create

section Hang

/-- Takes a node out and hangs it below `p`, whose other children are known to `g`. -/
def hang (d : Drawing) (p c : Handle) (g : List Handle → List Handle) : Drawing :=
  ((d.detach c).modify p fun n => { n with children := g n.children }).modify c
    ({ · with parent := some p })

variable {g : List Handle → List Handle}

theorem append_eq_hang (d : Drawing) (p c : Handle) : d.append p c = d.hang p c (· ++ [c]) := rfl

theorem insert_eq_hang (d : Drawing) (p : Handle) (i : Nat) (c : Handle) :
    d.insert p i c = d.hang p c fun l => l.take i ++ c :: l.drop i := rfl

theorem size_hang (d : Drawing) (p c : Handle) (g : List Handle → List Handle) :
    (d.hang p c g).nodes.size = d.nodes.size := by
  rw [hang, size_modify, size_modify, size_detach]

theorem content?_hang (d : Drawing) (p c : Handle) (g : List Handle → List Handle) (x : Handle) :
    (d.hang p c g).content? x = d.content? x := by
  rw [hang, content?_setParent, content?_setChildren, content?_detach]

theorem parent?_hang (hc : c < d.nodes.size) (p : Handle) (g : List Handle → List Handle) (x : Handle) :
    (d.hang p c g).parent? x = if x = c then some p else d.parent? x := by
  have hlt : c < ((d.detach c).modify p fun n => { n with children := g n.children }).nodes.size := by
    rwa [size_modify, size_detach]
  rw [hang, parent?_setParent hlt, parent?_setChildren, parent?_detach]
  split <;> rfl

theorem Forest.children_hang (hd : d.Forest) (hp : p < d.nodes.size) (c : Handle)
    (g : List Handle → List Handle) (x : Handle) :
    (d.hang p c g).children x =
      if x = p then g ((d.children x).filter (· != c)) else (d.children x).filter (· != c) := by
  have hlt : p < (d.detach c).nodes.size := by rwa [size_detach]
  rw [Drawing.hang, children_setParent, children_setChildren hlt, hd.children_detach]

theorem Forest.hang (hd : d.Forest) (h : d.MayHold p c) (hg : ∀ l, (g l).Perm (c :: l)) :
    (d.hang p c g).Forest := by
  have hchildren := hd.children_hang h.parent c g
  refine (hd.detach c).attach (c := c) (p := p) ?_ ?_ (mt Contains.of_detach h.apart) rfl ?_
    (fun x => ?_) ?_ fun x hx => ?_
  · rw [parent?_detach, if_pos rfl]
  · rw [root_detach]
    exact h.inner
  · rw [size_hang, size_detach]
  · rw [parent?_hang h.child, parent?_detach]
    split <;> rfl
  · rw [hchildren, if_pos rfl, hd.children_detach]
    exact hg _
  · rw [hchildren, if_neg hx, hd.children_detach]

theorem Forest.append (hd : d.Forest) (h : d.MayHold p c) : (d.append p c).Forest := by
  rw [append_eq_hang]
  exact hd.hang h fun _ => List.perm_append_singleton c _

theorem Forest.insert (hd : d.Forest) (h : d.MayHold p c) (i : Nat) : (d.insert p i c).Forest := by
  rw [insert_eq_hang]
  refine hd.hang h fun l => List.perm_middle.trans ?_
  rw [List.take_append_drop]

end Hang

section Replace

/-- How the nodes are linked when `new` stands below `p` in the place of `old`. -/
structure Relinked (d : Drawing) (p old new : Handle) (d₁ : Drawing) : Prop where
  root : d₁.root = d.root
  size : d₁.nodes.size = d.nodes.size
  content? : ∀ x, d₁.content? x = d.content? x
  parent? : ∀ x, d₁.parent? x =
    if x = old then none else if x = new then some p else d.parent? x
  children : ∀ x, d₁.children x =
    if x = p then replaceFirst old new ((d.children x).filter (· != new))
    else (d.children x).filter (· != new)

theorem Forest.relinked (hd : d.Forest) (hold : d.parent? old = some p) (hnew : new < d.nodes.size)
    (hok : d.replace? old new = some d₁) : d.Relinked p old new d₁ := by
  have hlt : old < (d.hang p new (replaceFirst old new)).nodes.size := by
    rw [size_hang]
    exact lt_size hold
  obtain rfl : (d.hang p new (replaceFirst old new)).modify old ({ · with parent := none }) = d₁ := by
    rw [replace?, hold] at hok
    exact Option.some.inj hok
  refine ⟨root_detach d new, ?_, fun x => ?_, fun x => ?_, fun x => ?_⟩
  · rw [size_modify, size_hang]
  · rw [content?_setParent, content?_hang]
  · rw [parent?_setParent hlt, parent?_hang hnew]
  · rw [children_setParent, hd.children_hang (hd.parent_lt_size hold)]

theorem Forest.siblings (hd : d.Forest) (hold : d.parent? old = some p) :
    ∃ front back, d.children p = front ++ old :: back ∧ old ∉ front ∧ old ∉ back := by
  obtain ⟨front, back, hsplit⟩ := List.append_of_mem ((hd.mem_children p old).2 hold)
  have hnodup := hd.nodup p
  rw [hsplit, List.nodup_middle, List.nodup_cons, List.mem_append, not_or] at hnodup
  exact ⟨front, back, hsplit, hnodup.1.1, hnodup.1.2⟩

theorem Relinked.siblings (h : d.Relinked p old new d₁) (hne : new ≠ old)
    {front back : List Handle} (hsplit : d.children p = front ++ old :: back)
    (hfront : old ∉ front) :
    d₁.children p = front.filter (· != new) ++ new :: back.filter (· != new) := by
  have hold : (old != new) = true := bne_iff_ne.2 hne.symm
  rw [h.children, if_pos rfl, hsplit, List.filter_append, List.filter_cons_of_pos (p := (· != new)) hold,
    replaceFirst_append fun hmem => hfront (List.mem_filter.1 hmem).1]

theorem Forest.replace (hd : d.Forest) (hold : d.parent? old = some p) (hne : new ≠ old)
    (hmay : d.MayHold p new) (h : d.Relinked p old new d₁) : d₁.Forest := by
  obtain ⟨front, back, hsplit, hfront, hback⟩ := hd.siblings hold
  have hout : ∀ l : List Handle, old ∉ l → l.filter (· != old) = l := fun l hl =>
    List.filter_eq_self.2 fun y hy => bne_iff_ne.2 fun he => hl (he ▸ hy)
  -- Both nodes are taken out first; the new one is then a node without a parent that is put somewhere.
  have hd' := (hd.detach new).detach old
  have hchildren : ∀ x, ((d.detach new).detach old).children x =
      ((d.children x).filter (· != new)).filter (· != old) := fun x => by
    rw [(hd.detach new).children_detach, hd.children_detach]
  refine hd'.attach (c := new) (p := p) ?_ ?_ (fun hc => hmay.apart hc.of_detach.of_detach) ?_ ?_
    (fun x => ?_) ?_ fun x hx => ?_
  · rw [parent?_detach, parent?_detach, if_pos rfl, ite_self]
  · rw [root_detach, root_detach]
    exact hmay.inner
  · rw [root_detach, root_detach, h.root]
  · rw [size_detach, size_detach, h.size]
  · rw [h.parent?, parent?_detach, parent?_detach]
    by_cases hx : x = old
    · subst hx
      rw [if_pos rfl, if_neg hne.symm, if_pos rfl]
    · rw [if_neg hx, if_neg hx]
      split <;> rfl
  · rw [h.siblings hne hsplit hfront, hchildren, hsplit, List.filter_comm, List.filter_append,
      List.filter_cons_of_neg (by simp), hout front hfront, hout back hback, List.filter_append]
    exact List.perm_middle
  · rw [h.children, if_neg hx, hchildren, hout]
    intro hmem
    exact hx (Option.some.inj (((hd.mem_children x old).1 (List.mem_filter.1 hmem).1).symm.trans hold))

structure Replaced (d : Drawing) (old new : Handle) (d₁ : Drawing) : Prop where
  /-- The siblings keep their order; the new node may have been one of them. -/
  place : ∃ p front back, d.parent? old = some p ∧ d.children p = front ++ old :: back ∧
    d₁.children p = front.filter (· != new) ++ new :: back.filter (· != new)
  parent : d₁.parent? new = d.parent? old
  detached : d₁.parent? old = none
  /-- The new node takes what is below it along, also from below the old one. -/
  subtree : ∀ x, d₁.Contains old x ↔ d.Contains old x ∧ ¬ d.Contains new x
  below : ∀ x, d₁.Contains old x →
    d₁.content? x = d.content? x ∧ d₁.children x = (d.children x).filter (· != new)

theorem Relinked.isParent_iff (h : d.Relinked p old new d₁) (hne : new ≠ old) {y z : Handle} :
    d₁.IsParent y z ↔ z ≠ old ∧ (z = new ∧ y = p ∨ z ≠ new ∧ d.IsParent y z) := by
  rw [IsParent, h.parent?]
  by_cases hold : z = old
  · simp [hold]
  · by_cases hnew : z = new
    · subst hnew
      simp [hold, eq_comm]
    · simp [hold, hnew, IsParent]

theorem Relinked.contains_iff (hd : d.Forest) (hold : d.parent? old = some p) (hne : new ≠ old)
    (hmay : d.MayHold p new) (h : d.Relinked p old new d₁) :
    d₁.Contains old x ↔ d.Contains old x ∧ ¬ d.Contains new x := by
  constructor
  · intro hx
    induction hx with
    | refl => exact ⟨.refl, fun hc => hmay.apart (hc.of_parent? hold hne)⟩
    | @tail y z _ hyz ih =>
      obtain ⟨-, ⟨rfl, rfl⟩ | ⟨hz, hyz⟩⟩ := (h.isParent_iff hne).1 hyz
      · exact absurd ih.1 (hd.not_contains hold)
      · exact ⟨ih.1.tail hyz, fun hc => ih.2 (hc.of_parent? hyz (Ne.symm hz))⟩
  · rintro ⟨hx, hnot⟩
    induction hx with
    | refl => exact .refl
    | @tail y z hy hyz ih =>
      have hz : z ≠ new := fun he => hnot (he ▸ .refl)
      have hzold : z ≠ old := by
        rintro rfl
        obtain rfl : p = y := Option.some.inj (hold.symm.trans hyz)
        exact hd.not_contains hold hy
      exact (ih fun hc => hnot (hc.tail hyz)).tail ((h.isParent_iff hne).2 ⟨hzold, .inr ⟨hz, hyz⟩⟩)

theorem Relinked.replaced (hd : d.Forest) (hold : d.parent? old = some p) (hne : new ≠ old)
    (hmay : d.MayHold p new) (h : d.Relinked p old new d₁) : d.Replaced old new d₁ where
  place := by
    obtain ⟨front, back, hsplit, hfront, -⟩ := hd.siblings hold
    exact ⟨p, front, back, hold, hsplit, h.siblings hne hsplit hfront⟩
  parent := by rw [h.parent?, if_neg hne, if_pos rfl, hold]
  detached := by rw [h.parent?, if_pos rfl]
  subtree := fun x => h.contains_iff hd hold hne hmay
  below := fun x hx => by
    have hxp : x ≠ p := by
      rintro rfl
      exact hd.not_contains hold ((h.contains_iff hd hold hne hmay).1 hx).1
    exact ⟨h.content? x, by rw [h.children, if_neg hxp]⟩

end Replace

section Run

theorem mayHold_createElement (hd : d.Forest) (e : Element) (s : String) :
    ((d.create (.element e)).1.create (.text s)).1.MayHold d.nodes.size (d.nodes.size + 1) where
  parent := by
    rw [size_create, size_create]
    exact Nat.lt_succ_of_lt (Nat.lt_succ_self _)
  child := by
    rw [size_create, size_create]
    exact Nat.lt_succ_self _
  inner := (hd.present.trans (Nat.lt_succ_self _)).ne'
  apart := by
    refine not_contains_of_parent?_none ?_ (Nat.succ_ne_self _)
    rw [parent?_create, parent?_create, parent?, node?, Array.getElem?_eq_none le_rfl]
    rfl

theorem forest_after (hd : d.Forest) {e : Edit} (he : d.Admits e) : (d.after e).Forest := by
  cases e with
  | create a => exact hd.create a
  | createElement e text =>
    cases text with
    | none => exact hd.create (.element e)
    | some s =>
      rw [after, createElement_eq]
      exact ((hd.create _).create _).append (mayHold_createElement hd e s)
  | append p c => exact hd.append he
  | insert p i c => exact hd.insert he i
  | replace old new =>
    rw [after]
    cases hok : d.replace? old new with
    | none => exact hd
    | some d₁ =>
      obtain ⟨p, hold, -⟩ := Option.map_eq_some_iff.1 hok
      obtain ⟨hne, hmay⟩ := he p hold
      exact hd.replace hold hne hmay (hd.relinked hold hmay.child hok)

theorem children_after (hd : d.Forest) {e : Edit} (he : d.Admits e)
    (hx : ∀ p c, d.link? e = some (p, c) → x ≠ p ∧ d.parent? c ≠ some x) :
    (d.after e).children x = d.children x := by
  cases e with
  | create a => exact children_create d a x
  | createElement e text =>
    cases text with
    | none => exact children_create d (.element e) x
    | some s =>
      have hforest := (hd.create (.element e)).create (.text s)
      have hmay := mayHold_createElement hd e s
      rw [after, createElement_eq, append_eq_hang, hforest.children_hang hmay.parent,
        if_neg (hx _ _ rfl).1, hforest.filter_children, children_create, children_create]
      rw [parent?_create_text]
      nofun
  | append p c =>
    obtain ⟨hp, hc⟩ := hx p c rfl
    rw [after, append_eq_hang, hd.children_hang he.parent, if_neg hp, hd.filter_children hc]
  | insert p i c =>
    obtain ⟨hp, hc⟩ := hx p c rfl
    rw [after, insert_eq_hang, hd.children_hang he.parent, if_neg hp, hd.filter_children hc]
  | replace old new =>
    rw [after]
    cases hok : d.replace? old new with
    | none => rfl
    | some d₁ =>
      obtain ⟨p, hold, -⟩ := Option.map_eq_some_iff.1 hok
      obtain ⟨hp, hnew⟩ := hx p new (by rw [link?, hold]; rfl)
      have h := hd.relinked hold (he p hold).2.child hok
      rw [Option.getD_some, h.children, if_neg hp, hd.filter_children hnew]

theorem parent?_after (hd : d.Forest) {e : Edit} (he : d.Admits e) (hlink : d.link? e = some (p, c)) :
    (d.after e).parent? c = some p := by
  cases e with
  | create a => cases hlink
  | createElement e text =>
    cases text with
    | none => cases hlink
    | some s =>
      obtain ⟨rfl, rfl⟩ : d.nodes.size = p ∧ d.nodes.size + 1 = c := by simpa [link?] using hlink
      rw [after, createElement_eq, append_eq_hang, parent?_hang (mayHold_createElement hd e s).child,
        if_pos rfl]
  | append p' c' =>
    obtain ⟨rfl, rfl⟩ : p' = p ∧ c' = c := by simpa [link?] using hlink
    rw [after, append_eq_hang, parent?_hang he.child, if_pos rfl]
  | insert p' i c' =>
    obtain ⟨rfl, rfl⟩ : p' = p ∧ c' = c := by simpa [link?] using hlink
    rw [after, insert_eq_hang, parent?_hang he.child, if_pos rfl]
  | replace old new =>
    obtain ⟨p', hold, heq⟩ := Option.map_eq_some_iff.1 hlink
    obtain ⟨rfl, rfl⟩ : p' = p ∧ new = c := by simpa using heq
    obtain ⟨hne, hmay⟩ := he p' hold
    obtain ⟨d₁, hok⟩ : ∃ d₁, d.replace? old new = some d₁ := ⟨_, by rw [replace?, hold]; rfl⟩
    rw [after, hok, Option.getD_some, (hd.relinked hold hmay.child hok).replaced hd hold hne hmay
      |>.parent, hold]

theorem forest_of_steps (hd : d.Forest) (hrun : ReflTransGen Step d d₁) : d₁.Forest := by
  induction hrun with
  | refl => exact hd
  | tail _ hstep ih =>
    obtain ⟨e, he, rfl⟩ := hstep
    exact forest_after ih he

/-- Whatever edits came before: parent and child links agree and nothing is above itself; the next edit
links the node that it names and gives no other than its two parents other children; and replacing puts
the new node where the old one stood, if that had a parent, and else does nothing. -/
theorem forest_of_edits (hd : d.Forest) (hrun : ReflTransGen Step d d₁) :
    (d₁.Forest ∧ ∀ p h, d₁.parent? h = some p ↔
      (d₁.children p).count h = 1 ∧ ∀ q ≠ p, h ∉ d₁.children q) ∧
    (∀ e, d₁.Admits e →
      (∀ p c, d₁.link? e = some (p, c) → (d₁.after e).parent? c = some p) ∧
      ∀ x, (∀ p c, d₁.link? e = some (p, c) → x ≠ p ∧ d₁.parent? c ≠ some x) →
        (d₁.after e).children x = d₁.children x) ∧
    ∀ old new, d₁.Admits (.replace old new) →
      ((d₁.replace? old new).isSome ↔ (d₁.parent? old).isSome) ∧
      (d₁.replace? old new = none → d₁.after (.replace old new) = d₁) ∧
      ∀ d₂, d₁.replace? old new = some d₂ → d₁.Replaced old new d₂ := by
  have hd₁ := forest_of_steps hd hrun
  refine ⟨⟨hd₁, fun p h => hd₁.parent?_eq_some_iff⟩, fun e he => ⟨fun p c => parent?_after hd₁ he,
    fun x => children_after hd₁ he⟩, fun old new he => ⟨?_, fun hnone => ?_, fun d₂ hok => ?_⟩⟩
  · rw [replace?, Option.isSome_map]
  · rw [after, hnone, Option.getD_none]
  · obtain ⟨p, hold, -⟩ := Option.map_eq_some_iff.1 hok
    obtain ⟨hne, hmay⟩ := he p hold
    exact (hd₁.relinked hold hmay.child hok).replaced hd₁ hold hne hmay

/-- A node is replaced by what stands two levels below it. -/
theorem forest_of_edits_inner :
    let svg : Content := .element { name := "svg" }
    let g : Content := .element { name := "g" }
    let a : Content := .element { name := "a" }
    let d : Drawing := { nodes := #[{ content := svg }] }
    let d₁ : Drawing := { nodes := #[{ content := svg, children := [1] },
      { content := g, parent := some 0, children := [2] },
      { content := a, parent := some 1, children := [3] },
      { content := .text "x", parent := some 2 }] }
    d.Forest ∧ ReflTransGen Step d d₁ ∧ ∃ d₂, d₁.replace? 1 3 = some d₂ ∧ d₂.children 0 = [3] ∧
      d₂.Contains 1 2 ∧ ¬ d₂.Contains 1 3 := by
  intro svg g a d d₁
  let dg : Drawing := { nodes := #[{ content := svg }, { content := g }] }
  let dg' : Drawing := { nodes := #[{ content := svg, children := [1] },
    { content := g, parent := some 0 }] }
  let da : Drawing := { nodes := #[{ content := svg, children := [1] },
    { content := g, parent := some 0 }, { content := a, children := [3] },
    { content := .text "x", parent := some 2 }] }
  have hd : d.Forest := forest_single _ _
  have hcreateg : Step d dg := ⟨.createElement { name := "g" } none, trivial, rfl⟩
  have happendg : Step dg dg' := ⟨.append 0 1, ⟨by decide, by decide, by decide,
    not_contains_of_parent?_none rfl (by decide)⟩, rfl⟩
  have hcreatea : Step dg' da := ⟨.createElement { name := "a" } (some "x"), trivial, rfl⟩
  have happenda : Step da d₁ := ⟨.append 1 2, ⟨by decide, by decide, by decide, fun hc =>
    not_contains_of_parent?_none rfl (by decide) (hc.of_parent? (p := 0) rfl (by decide))⟩, rfl⟩
  have hrun : ReflTransGen Step d d₁ :=
    .head hcreateg (.head happendg (.head hcreatea (.single happenda)))
  have hadmits : d₁.Admits (.replace 1 3) := by
    rintro p hp
    obtain rfl : 0 = p := Option.some.inj hp
    exact ⟨by decide, by decide, by decide, by decide, not_contains_of_parent?_none rfl (by decide)⟩
  obtain ⟨-, -, hreplaced⟩ := (forest_of_edits hd hrun).2.2 1 3 hadmits
  have h := hreplaced _ rfl
  refine ⟨hd, hrun, _, rfl, rfl, (h.subtree 2).2 ⟨.single rfl, fun hc => ?_⟩, fun hc => ?_⟩
  · have hg : d₁.Contains 3 1 := hc.of_parent? rfl (by decide)
    exact not_contains_of_parent?_none rfl (by decide) (hg.of_parent? (p := 0) rfl (by decide))
  · exact ((h.subtree 3).1 hc).2 .refl

end Run

end Drawing

end FormulaDrawing
