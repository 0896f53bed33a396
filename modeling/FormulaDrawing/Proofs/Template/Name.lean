import FormulaDrawing.Proofs.Drawing.Order
import FormulaDrawing.Proofs.Drawing.Subtree
import FormulaDrawing.Proofs.Substitution.Planning
import FormulaDrawing.Proofs.Text.Blank
import FormulaDrawing.Proofs.Text.Pairs

/-! The name of a formula is what cleaning leaves of the first text that is not blank, in the element and then
below it. It stands without closing pairs of braces; but as opening pairs go first, one of them can come
together where closing pairs stood. -/

namespace FormulaDrawing

open Text

namespace Drawing

variable {d : Drawing} {h : Handle} {t : Tree Content} {s n : String}

/-- What there is to say about a name that was cleaned. -/
structure Cleaned (s n : String) : Prop where
  ne_empty : n ≠ ""
  first : ∀ c, n.toList.head? = some c → isBlank c = false
  last : ∀ c, n.toList.getLast? = some c → isBlank c = false
  closing : ¬ ['\x7d', '\x7d'] <:+: n.toList
  /-- Without opening pairs two opening braces stood about closing pairs alone. -/
  opening : ['\x7b', '\x7b'] <:+: n.toList ↔ ∃ k,
    '\x7b' :: (List.replicate (2 * (k + 1)) '\x7d' ++ ['\x7b']) <:+: erasePairs '\x7b' s.toList

theorem cleaned_of_cleanName? (hn : cleanName? s = some n) : Cleaned s n := by
  obtain ⟨hne, rfl⟩ := nonBlank?_eq_some_iff.1 hn
  have hpair {b : Char} (hb : isBlank b = false) (u : List Char) :
      [b, b] <:+: (trimmed (String.ofList u)).toList ↔ [b, b] <:+: u := by
    rw [trimmed, String.toList_ofList, String.toList_ofList]
    exact infix_trim_iff (by simpa using hb)
  refine ⟨hne, fun c hc => ?_, fun c hc => ?_, ?_, ?_⟩
  · rw [trimmed, String.toList_ofList] at hc
    exact isBlank_of_head?_trim hc
  · rw [trimmed, String.toList_ofList] at hc
    exact isBlank_of_getLast?_trim hc
  · rw [hpair (by decide)]
    exact not_infix_erasePairs _ _
  · rw [hpair (by decide), infix_erasePairs_iff (by decide)]
    constructor
    · rintro ⟨_ | k, hk⟩
      · exact absurd hk (not_infix_erasePairs _ _)
      · exact ⟨k, hk⟩
    · rintro ⟨k, hk⟩
      exact ⟨k + 1, hk⟩

theorem formulaName?_of_hangs (hd : d.Forest) (ht : d.Hangs h t) (labels : List String) :
    d.formulaName? labels h = t.formulaName? labels := by
  obtain ⟨p, b, hb, rfl, rfl⟩ := ht
  exact formulaName?_branch hb (hd.nodup_handles hb) labels

/-- A name comes from a text with nothing but blank ones in front of it, in the order of the element and
those below it, each with its leading text first and then its labels. Of pairs of braces only opening ones
may be left in it, and only where closing pairs stood between two opening braces. -/
theorem name_of_first_text (hd : d.Forest) (hh : h < d.nodes.size) (labels : List String) :
    ∃ t, d.Hangs h t ∧ d.formulaName? labels h = t.formulaName? labels ∧
      ∀ n, d.formulaName? labels h = some n → ∃ front s back,
        (t :: t.elementsBelow).flatMap (Tree.nameTexts labels) = front ++ s :: back ∧
          (∀ r ∈ front, nonBlank? r = none) ∧ nonBlank? s ≠ none ∧ cleanName? s = some n ∧
          Cleaned s n := by
  obtain ⟨t, ht⟩ := hd.exists_hangs hh
  have heq := formulaName?_of_hangs hd ht labels
  refine ⟨t, ht, heq, fun n hn => ?_⟩
  rw [heq, Tree.formulaName?] at hn
  obtain ⟨s, hfound, hs⟩ := Option.bind_eq_some_iff.1 hn
  obtain ⟨hs', front, back, htexts, hfront⟩ := List.find?_eq_some_iff_append.1 hfound
  refine ⟨front, s, back, htexts, fun r hr => ?_, ?_, hs, cleaned_of_cleanName? hs⟩
  · simpa using hfront r hr
  · exact Option.isSome_iff_ne_none.1 hs'

/-- Blank texts in front, and one brace too many on each side. -/
theorem name_of_first_text_braces :
    let g : Element := { name := "g", attributes := [("label", "")] }
    let a : Element := { name := "a", attributes := [("label", "\x7b\x7b\x7bp q\x7d\x7d \x7d")] }
    let d : Drawing := { nodes := #[{ content := .element g, children := [1, 2] },
      { content := .text " ", parent := some 0 }, { content := .element a, parent := some 0 }] }
    d.Forest ∧ d.formulaName? ["label"] 0 = some "\x7bp q \x7d" ∧
      ∃ s, cleanName? s = some "\x7bp q \x7d" ∧ Cleaned s "\x7bp q \x7d" := by
  intro g a d
  have hread : read "<g label=\"\"> <a label=\"\x7b\x7b\x7bp q\x7d\x7d \x7d\"/></g>" = .ok d := by cbv
  obtain ⟨b, hb⟩ := numbered_of_read hread
  have hname : d.formulaName? ["label"] 0 = some "\x7bp q \x7d" := by decide
  obtain ⟨t, -, -, hfirst⟩ := name_of_first_text hb.forest (h := 0) (by decide) ["label"]
  obtain ⟨-, s, -, -, -, -, hs, hclean⟩ := hfirst _ hname
  exact ⟨hb.forest, hname, s, hs, hclean⟩

/-- A closing pair between two opening braces leaves an opening pair. -/
theorem name_with_opening_pair :
    let e : Element := { name := "text", attributes := [("id", "a")] }
    let d : Drawing := { nodes := #[{ content := .element { name := "svg" }, children := [1] },
      { content := .element e, parent := some 0, children := [2] },
      { content := .text "\x7b\x7d\x7d\x7bx", parent := some 1 }] }
    d.Forest ∧ d.formulaName? ({} : Settings).labels 1 = some "\x7b\x7bx" ∧
      ['\x7b', '\x7b'] <:+: "\x7b\x7bx".toList := by
  intro e d
  have hread : read "<svg><text id=\"a\">\x7b\x7d\x7d\x7bx</text></svg>" = .ok d := by cbv
  obtain ⟨b, hb⟩ := numbered_of_read hread
  exact ⟨hb.forest, by decide, by decide⟩

end Drawing

end FormulaDrawing
