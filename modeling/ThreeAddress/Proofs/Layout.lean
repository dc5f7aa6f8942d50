import ThreeAddress.Proofs.LexicalGrammar
import ThreeAddress.Yaml.Row
import ThreeAddress.Yaml.Scan

/-!
# Written rows

Fields are written one to a row.  The rows of the whole text are the rows that
were written, since no field holds a line end or a character that is not
allowed.
-/

namespace ThreeAddress.Yaml

/-! ## Characters that are written -/

/-- A character that may stand anywhere in a row. -/
def IsInline (c : Char) : Prop :=
  isAllowed c = true ∧ Ending.ofChar? c = none ∧ c ≠ '\ufeff'

theorem isInline_of_le
    {c : Char}
    (hlow : 0x20 ≤ c.toNat)
    (hhigh : c.toNat ≤ 0x7E) :
    IsInline c := by
  have hne : ∀ d : Char, d.toNat < 0x20 ∨ 0x7E < d.toNat → c ≠ d := by
    rintro d hd rfl
    omega
  refine ⟨?_, ?_, hne _ (by decide)⟩
  · simp [isAllowed, hlow, hhigh]
  · simp [Ending.ofChar?, hne '\n' (by decide), hne '\r' (by decide),
      hne '\u0085' (by decide), hne '\u2028' (by decide),
      hne '\u2029' (by decide)]

theorem isInline_of_isNameChar
    {c : Char}
    (h : isNameChar c = true) :
    IsInline c := by
  have hrange : ∀ low high : Char, 0x20 ≤ low.toNat → high.toNat ≤ 0x7E →
      low ≤ c → c ≤ high →
      IsInline c := by
    intro low high hlow hhigh hlowc hhighc
    exact isInline_of_le (hlow.trans (UInt32.le_iff_toNat_le.mp hlowc))
      ((UInt32.le_iff_toNat_le.mp hhighc).trans hhigh)
  rw [isNameChar_iff] at h
  rcases h with (h | h | rfl) | h
  · exact hrange 'a' 'z' (by decide) (by decide) h.1 h.2
  · exact hrange 'A' 'Z' (by decide) (by decide) h.1 h.2
  · exact isInline_of_le (by decide) (by decide)
  · exact hrange '0' '9' (by decide) (by decide) h.1 h.2

theorem ne_of_isNameChar
    {c d : Char}
    (h : isNameChar c = true)
    (hd : isNameChar d = false) :
    c ≠ d := by
  rintro rfl
  simp [h] at hd

/-! ## Rows of a text -/

theorem spoiledFrom_eq_none
    {text : List Char}
    (h : ∀ c ∈ text, isAllowed c = true)
    (start count room : Nat) :
    spoiledFrom start count room text = none := by
  induction text generalizing start count room with
  | nil => rfl
  | cons c rest ih =>
      rcases List.forall_mem_cons.mp h with ⟨hc, hrest⟩
      rw [spoiledFrom]
      simp only [hc, if_true]
      exact ih hrest _ _ _

theorem cutRows_append
    {line : List Char}
    (h : ∀ c ∈ line, Ending.ofChar? c = none)
    (last : Ending) (rest : List Char) :
    cutRows last (line ++ '\n' :: rest) =
      ⟨line, .lineEnd '\n'⟩ :: cutRows last rest := by
  induction line with
  | nil => rfl
  | cons c line ih =>
      rcases List.forall_mem_cons.mp h with ⟨hc, hline⟩
      have hreturn :
          ∀ more, c = '\r' → line ++ '\n' :: rest = '\n' :: more → False := by
        rintro more rfl
        simp [Ending.ofChar?] at hc
      rw [List.cons_append, cutRows, hc, ih hline]
      exact hreturn

def Field.row (f : Field) : Row := ⟨f.text.toList, .lineEnd '\n'⟩

theorem cutRows_fields
    {fields : List Field}
    (h : ∀ f ∈ fields, ∀ c ∈ f.text.toList, IsInline c) :
    cutRows .textEnd (fields.flatMap fun f => f.text.toList ++ ['\n']) =
      fields.map Field.row ++ [⟨[], .textEnd⟩] := by
  induction fields with
  | nil => rfl
  | cons f rest ih =>
      rcases List.forall_mem_cons.mp h with ⟨hf, hrest⟩
      rw [List.flatMap_cons, List.append_assoc, List.singleton_append,
        cutRows_append fun c hc => (hf c hc).2.1, ih hrest]
      rfl

theorem rowsOf_fields
    {fields : List Field}
    (h : ∀ f ∈ fields, ∀ c ∈ f.text.toList, IsInline c) :
    rowsOf (String.join (fields.map (·.text ++ "\n"))).toList =
      fields.map Field.row ++ [⟨[], .textEnd⟩] := by
  have htext : (String.join (fields.map (·.text ++ "\n"))).toList =
      fields.flatMap fun f => f.text.toList ++ ['\n'] := by
    rw [String.toList_join, List.flatMap_map]
    simp
  have hallowed : ∀ c ∈ fields.flatMap fun f => f.text.toList ++ ['\n'],
      isAllowed c = true ∧ c ≠ '\ufeff' := by
    simp only [List.mem_flatMap, List.mem_append, List.mem_singleton]
    rintro c ⟨f, hf, hc | rfl⟩
    · exact ⟨(h f hf c hc).1, (h f hf c hc).2.2⟩
    · decide
  have hunmarked :
      unmarked (fields.flatMap fun f => f.text.toList ++ ['\n']) =
      fields.flatMap fun f => f.text.toList ++ ['\n'] := by
    unfold unmarked
    split
    · next rest hrest =>
          exact absurd rfl (hallowed '\ufeff' (by simp [hrest])).2
    · rfl
  rw [htext, rowsOf, spoiledFrom_eq_none fun c hc => (hallowed c hc).1]
  simp only
  rw [hunmarked, cutRows_fields h]

end ThreeAddress.Yaml
