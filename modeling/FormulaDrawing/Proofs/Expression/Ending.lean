import FormulaDrawing.Proofs.Expression.Lexing

/-! Where the last token of a text stops: at the end of the text, unless a gap follows it. -/

namespace FormulaDrawing.Expression

open Text

theorem isGap_of_lexFrom_nil {offset : Nat} {s : List Char} (h : lexFrom offset s = .ok []) :
    ∀ c ∈ s, isGap c = true := by
  intro c hc
  obtain ⟨front, back, rfl⟩ := List.append_of_mem hc
  exact ((partitions_of_lexFrom h).gap front c back rfl).resolve_right nofun

theorem stop_eq_iff {offset : Nat} {s : List Char} {ls : List Lexeme} {l : Lexeme}
    (h : lexFrom offset s = .ok ls) (hl : ls.getLast? = some l) :
    l.span.stop = offset + byteLength s ↔ ∀ c, s.getLast? = some c → isGap c = false := by
  fun_induction lexFrom offset s generalizing ls with
  | case1 =>
    obtain rfl : [] = ls := by simpa using h
    simp at hl
  | case2 offset c t hc ih =>
    rw [byteLength_cons, ← Nat.add_assoc, ih h hl]
    cases t with
    | nil =>
      rw [lexFrom] at h
      obtain rfl : [] = ls := by simpa using h
      simp at hl
    | cons d t => simp
  | case3 => simp at h
  | case4 offset c t hc token text rest hr stop =>
    rename_i ih
    have happ : text ++ rest = c :: t := Token.read?_append hr
    cases hls : lexFrom stop rest with
    | error cause => simp [hls, Except.map] at h
    | ok later =>
      obtain rfl : ⟨token, ⟨offset, stop⟩⟩ :: later = ls := by simpa [hls, Except.map] using h
      rw [← happ, byteLength_append, ← Nat.add_assoc]
      -- The token is the last one exactly if nothing but a gap follows.
      rcases later with - | ⟨l', later⟩
      · obtain rfl : ⟨token, ⟨offset, stop⟩⟩ = l := by simpa using hl
        rcases List.eq_nil_or_concat rest with rfl | ⟨front, d, rfl⟩
        · have hlast : ∀ d, text.getLast? = some d → isGap d = false :=
            fun d hd => (isToken_of_read? hr).isGap_eq_false (List.mem_of_getLast? hd)
          simpa [stop] using hlast
        · have hd : isGap d = true := isGap_of_lexFrom_nil hls d (by simp)
          have := Char.utf8Size_pos d
          simp [stop, hd]
          omega
      · have hrest : rest ≠ [] := by
          rintro rfl
          rw [lexFrom] at hls
          simp at hls
        have hlast : (text ++ rest).getLast? = rest.getLast? := by
          rw [List.getLast?_append, List.getLast?_eq_some_getLast hrest, Option.some_or]
        rw [hlast]
        exact ih hls (by simpa using hl)

end FormulaDrawing.Expression
