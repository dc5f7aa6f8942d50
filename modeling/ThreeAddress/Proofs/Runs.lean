import Mathlib.Tactic
import ThreeAddress.Token.Scan

/-!
# Runs of a source text

A run is a longest part of the text without a separator.  Cutting a text finds
its runs and nothing else, each with the place of its first character, and in
the order in which they stand.
-/

namespace ThreeAddress

/-- A blank, or a character that is a lexeme on its own. -/
def Separates (c : Char) : Prop :=
  Text.isBlank c = true ∨ c ∈ ['+', '-', '*', '/', '(', ')']

instance : DecidablePred Separates := fun c =>
  inferInstanceAs
    (Decidable (Text.isBlank c = true ∨ c ∈ ['+', '-', '*', '/', '(', ')']))

/-- Nothing is left, or a separator comes next. -/
def StopsRun (after : List Char) : Prop := ∀ c ∈ after.head?, Separates c

def IsUnbroken (text : List Char) : Prop :=
  text ≠ [] ∧ ∀ c ∈ text, ¬Separates c

/-- The text is a run of the source, whose first character has place
`first`. -/
def IsRun (first : Nat) (source : List Char) (start : Nat)
    (text : List Char) : Prop :=
  ∃ before after, source = before ++ (text ++ after) ∧
    start = first + before.length ∧
    IsUnbroken text ∧ (∀ c ∈ before.getLast?, Separates c) ∧ StopsRun after

/-! ## Runs of a text by its first characters -/

theorem not_isRun_nil
    {first start : Nat} {text : List Char} :
    ¬IsRun first [] start text := by
  rintro ⟨before, after, hsource, _, htext, _⟩
  simp at hsource
  exact htext.1 hsource.2.1

theorem isRun_cons_of_separates
    {first start : Nat} {c : Char} {rest text : List Char}
    (hc : Separates c) :
    IsRun first (c :: rest) start text ↔
      IsRun (first + 1) rest start text := by
  constructor
  · rintro ⟨before, after, hsource, hstart, htext, hbefore, hafter⟩
    cases before with
    | nil =>
        -- The run would have to start with the separator.
        rcases List.exists_cons_of_ne_nil htext.1 with ⟨d, others, rfl⟩
        have hd : c = d := (List.cons.inj hsource).1
        exact absurd hc (hd ▸ htext.2 d List.mem_cons_self)
    | cons d before =>
        simp only [List.cons_append, List.cons.injEq] at hsource
        refine ⟨before, after, hsource.2, ?_, htext, ?_, hafter⟩
        · rw [hstart, List.length_cons]
          omega
        · intro e he
          apply hbefore e
          rw [Option.mem_def] at he
          simp [List.getLast?_cons, he]
  · rintro ⟨before, after, rfl, rfl, htext, hbefore, hafter⟩
    refine ⟨c :: before, after, rfl, ?_, htext, ?_, hafter⟩
    · rw [List.length_cons]
      omega
    · intro e he
      cases hlast : before.getLast? with
      | none =>
          rw [List.getLast?_cons, hlast] at he
          rw [← show c = e by simpa using he]
          exact hc
      | some d =>
          rw [List.getLast?_cons, hlast] at he
          exact hbefore e (by simpa [hlast] using he)

theorem eq_of_append_eq_append
    {run text after rest : List Char}
    (hrun : IsUnbroken run)
    (htext : IsUnbroken text)
    (hafter : StopsRun after)
    (hrest : StopsRun rest)
    (h : text ++ after = run ++ rest) :
    text = run := by
  have htake : ∀ {part behind : List Char},
      IsUnbroken part → StopsRun behind →
      (part ++ behind).takeWhile (fun c => decide ¬Separates c) = part := by
    intro part behind hpart hbehind
    rw [List.takeWhile_append_of_pos (by simpa using hpart.2)]
    cases behind with
    | nil => simp
    | cons c behind => simp [hbehind c rfl]
  rw [← htake htext hafter, h, htake hrun hrest]

theorem isRun_append
    {first start : Nat} {run after text : List Char}
    (hrun : IsUnbroken run)
    (hafter : StopsRun after) :
    IsRun first (run ++ after) start text ↔
      (start = first ∧ text = run) ∨
      IsRun (first + run.length) after start text := by
  constructor
  · rintro ⟨before, behind, hsource, rfl, htext, hbefore, hbehind⟩
    rcases List.append_eq_append_iff.mp hsource.symm with
      ⟨tail, hsplit, hrest⟩ | ⟨tail, hsplit, hrest⟩
    · rcases List.eq_nil_or_concat' before with rfl | ⟨init, c, rfl⟩
      · left
        rw [List.nil_append] at hsplit
        subst hsplit
        exact ⟨rfl, eq_of_append_eq_append hrun htext hbehind hafter hrest⟩
      · -- A separator in front of the text would stand inside the run.
        have hc : Separates c := hbefore c (by simp)
        exact absurd hc (hrun.2 c (by simp [hsplit]))
    · right
      refine ⟨tail, behind, hrest, ?_, htext, ?_, hbehind⟩
      · rw [hsplit, List.length_append]
        omega
      · intro c hc
        apply hbefore c
        rw [Option.mem_def] at hc
        simp [hsplit, List.getLast?_append, hc]
  · rintro (⟨rfl, rfl⟩ | ⟨before, behind, rfl, rfl, htext, hbefore, hbehind⟩)
    · exact ⟨[], after, rfl, rfl, hrun, by simp, hafter⟩
    · refine ⟨run ++ before, behind, by simp, by simp; omega, htext,
        ?_, hbehind⟩
      intro c hc
      cases hlast : before.getLast? with
      | some d =>
          exact hbefore c (by simpa [List.getLast?_append, hlast] using hc)
      | none =>
          -- Nothing between the runs: the second one would go on without a
          -- separator.
          rw [List.getLast?_eq_none_iff] at hlast
          subst hlast
          rcases List.exists_cons_of_ne_nil htext.1 with ⟨d, others, rfl⟩
          exact absurd (hafter d (by simp)) (htext.2 d List.mem_cons_self)

theorem exists_run
    {c : Char}
    (hc : ¬Separates c)
    (rest : List Char) :
    ∃ run after, c :: rest = run ++ after ∧ IsUnbroken run ∧
      StopsRun after := by
  induction rest generalizing c with
  | nil => exact ⟨[c], [], rfl, by simp [IsUnbroken, hc], by simp [StopsRun]⟩
  | cons d rest ih =>
      by_cases hd : Separates d
      · exact ⟨[c], d :: rest, rfl, by simp [IsUnbroken, hc],
          by simp [StopsRun, hd]⟩
      · rcases ih hd with ⟨run, after, hsplit, hrun, hafter⟩
        refine ⟨c :: run, after, by rw [hsplit, List.cons_append],
          ⟨by simp, ?_⟩, hafter⟩
        rw [List.forall_mem_cons]
        exact ⟨hc, hrun.2⟩

/-- A text is empty, starts with a separator, or starts with a run. -/
theorem runs_induction
    {motive : List Char → Prop} (nil : motive [])
    (separator : ∀ c rest, Separates c → motive rest → motive (c :: rest))
    (run : ∀ run after, IsUnbroken run → StopsRun after → motive after →
      motive (run ++ after))
    (source : List Char) :
    motive source := by
  -- The induction is on the length, since a run is passed over as a whole.
  induction hlength : source.length using Nat.strong_induction_on
    generalizing source with
  | _ length ih =>
      cases source with
      | nil => exact nil
      | cons c rest =>
          by_cases hc : Separates c
          · exact separator c rest hc
              (ih rest.length (by simp [← hlength]) rest rfl)
          · rcases exists_run hc rest with ⟨run', after, hsplit, hrun, hafter⟩
            have hpos := List.length_pos_iff.mpr hrun.1
            rw [hsplit, List.length_append] at hlength
            rw [hsplit]
            exact run run' after hrun hafter
              (ih after.length (by omega) after rfl)

/-! ## Cutting -/

namespace Lexeme

/-- The place of the first character. -/
def start : Lexeme → Nat
  | .mark start _ => start
  | .run start _ => start

theorem markKind?_eq_none_iff
    {c : Char} :
    markKind? c = none ↔ c ∉ ['+', '-', '*', '/', '(', ')'] := by
  unfold markKind? Operator.ofChar?
  split
  · simp
  · simp
  · split <;> simp_all

theorem le_start_of_mem_extend
    {place : Nat} {c : Char} {rest : List Lexeme}
    (hrest : ∀ lexeme ∈ rest, place ≤ lexeme.start) :
    ∀ lexeme ∈ extend place c rest, place ≤ lexeme.start := by
  unfold extend
  split
  · split
    · exact List.forall_mem_cons.mpr
        ⟨le_rfl, (List.forall_mem_cons.mp hrest).2⟩
    · exact List.forall_mem_cons.mpr ⟨le_rfl, hrest⟩
  · exact List.forall_mem_cons.mpr ⟨le_rfl, hrest⟩

theorem le_start_of_mem_cut
    {first : Nat} {text : List Char} :
    ∀ lexeme ∈ cut first text, first ≤ lexeme.start := by
  induction text generalizing first with
  | nil => simp [cut]
  | cons c rest ih =>
      have hrest : ∀ lexeme ∈ cut (first + 1) rest, first ≤ lexeme.start :=
        fun lexeme hmem => (Nat.le_succ first).trans (ih lexeme hmem)
      rw [cut]
      split
      · exact hrest
      · split
        · exact List.forall_mem_cons.mpr ⟨le_rfl, hrest⟩
        · exact le_start_of_mem_extend hrest

theorem mark_mem_of_mem_extend
    {start place : Nat} {kind : TokenKind} {c : Char} {rest : List Lexeme}
    (h : .mark start kind ∈ extend place c rest) :
    .mark start kind ∈ rest := by
  unfold extend at h
  split at h
  · split at h
    · exact List.mem_cons_of_mem _ (by simpa using h)
    · simpa using h
  · simpa using h

/-- A mark stands where its character does. -/
theorem exists_char_of_mark_mem_cut
    {first start : Nat} {kind : TokenKind} {text : List Char}
    (h : .mark start kind ∈ cut first text) :
    ∃ k c, start = first + k ∧ text[k]? = some c ∧
      markKind? c = some kind := by
  induction text generalizing first with
  | nil => simp [cut] at h
  | cons c rest ih =>
      have hrest : .mark start kind ∈ cut (first + 1) rest →
          ∃ k d, start = first + k ∧ (c :: rest)[k]? = some d ∧
            markKind? d = some kind := by
        intro hmem
        rcases ih hmem with ⟨k, d, hstart, hd, hkind⟩
        exact ⟨k + 1, d, by omega, hd, hkind⟩
      rw [cut] at h
      split at h
      · exact hrest h
      · split at h
        · next other hkind =>
            rcases List.mem_cons.mp h with hmark | hmem
            · obtain ⟨rfl, rfl⟩ := Lexeme.mark.inj hmark
              exact ⟨0, c, rfl, rfl, hkind⟩
            · exact hrest hmem
        · exact hrest (mark_mem_of_mem_extend h)

theorem cut_cons_of_isBlank
    {c : Char}
    (hc : Text.isBlank c = true)
    (first : Nat) (rest : List Char) :
    cut first (c :: rest) = cut (first + 1) rest := by
  rw [cut, if_pos hc]

theorem exists_cut_cons_of_not_isBlank
    {c : Char}
    (hc : Separates c)
    (hblank : ¬Text.isBlank c = true)
    (first : Nat) (rest : List Char) :
    ∃ kind, cut first (c :: rest) =
      .mark first kind :: cut (first + 1) rest := by
  cases hkind : markKind? c with
  | none =>
      exact absurd (hc.resolve_left hblank) (markKind?_eq_none_iff.mp hkind)
  | some kind => exact ⟨kind, by rw [cut, if_neg hblank, hkind]⟩

theorem cut_cons_of_separates
    {c : Char}
    (hc : Separates c)
    (first : Nat) (rest : List Char) :
    cut first (c :: rest) = cut (first + 1) rest ∨
      ∃ kind, cut first (c :: rest) =
        .mark first kind :: cut (first + 1) rest := by
  by_cases hblank : Text.isBlank c = true
  · exact .inl (cut_cons_of_isBlank hblank first rest)
  · exact .inr (exists_cut_cons_of_not_isBlank hc hblank first rest)

theorem cut_cons_of_not_separates
    {c : Char}
    (hc : ¬Separates c)
    (first : Nat) (rest : List Char) :
    cut first (c :: rest) = extend first c (cut (first + 1) rest) := by
  simp only [Separates, not_or] at hc
  rw [cut, if_neg hc.1, markKind?_eq_none_iff.mpr hc.2]

/-- What is cut off where a run stops does not start at once with another
run. -/
theorem extend_cut_of_stopsRun
    {after : List Char}
    (hafter : StopsRun after)
    (first : Nat) (c : Char) :
    extend first c (cut (first + 1) after) =
      .run first [c] :: cut (first + 1) after := by
  cases after with
  | nil => rfl
  | cons d rest =>
      rcases cut_cons_of_separates (hafter d rfl) (first + 1) rest with
        hcut | ⟨kind, hcut⟩
      · rw [hcut]
        unfold extend
        split
        · next next text others hlexemes =>
            have hstart : first + 1 + 1 ≤ next :=
              le_start_of_mem_cut (.run next text)
                (hlexemes ▸ List.mem_cons_self)
            rw [if_neg (by omega), hlexemes]
        · rfl
      · rw [hcut, extend]
        simp

theorem cut_append
    {run after : List Char}
    (hrun : IsUnbroken run)
    (hafter : StopsRun after)
    (first : Nat) :
    cut first (run ++ after) =
      .run first run :: cut (first + run.length) after := by
  induction run generalizing first with
  | nil => exact absurd rfl hrun.1
  | cons c run ih =>
      rcases List.forall_mem_cons.mp hrun.2 with ⟨hc, hrest⟩
      rw [List.cons_append, cut_cons_of_not_separates hc]
      by_cases hnil : run = []
      · subst hnil
        exact extend_cut_of_stopsRun hafter first c
      · rw [ih ⟨hnil, hrest⟩, extend, if_pos rfl, List.length_cons,
          Nat.add_right_comm, Nat.add_assoc]

theorem run_mem_cut_iff
    {first : Nat} {source : List Char} {start : Nat} {text : List Char} :
    .run start text ∈ cut first source ↔ IsRun first source start text := by
  induction source using runs_induction generalizing first with
  | nil => simp [cut, not_isRun_nil]
  | separator c rest hc ih =>
      rw [isRun_cons_of_separates hc, ← ih]
      rcases cut_cons_of_separates hc first rest with
        hcut | ⟨kind, hcut⟩ <;> simp [hcut]
  | run run after hrun hafter ih =>
      rw [cut_append hrun hafter, isRun_append hrun hafter, List.mem_cons, ih]
      simp

theorem pairwise_start_cut
    (first : Nat) (source : List Char) :
    (cut first source).Pairwise (·.start < ·.start) := by
  induction source using runs_induction generalizing first with
  | nil => simp [cut]
  | separator c rest hc ih =>
      rcases cut_cons_of_separates hc first rest with hcut | ⟨kind, hcut⟩
      · rw [hcut]
        exact ih (first + 1)
      · rw [hcut]
        exact List.pairwise_cons.mpr ⟨le_start_of_mem_cut, ih (first + 1)⟩
  | run run after hrun hafter ih =>
      rw [cut_append hrun hafter]
      refine List.pairwise_cons.mpr ⟨?_, ih _⟩
      intro lexeme hmem
      have hpos := List.length_pos_iff.mpr hrun.1
      have hstart := le_start_of_mem_cut lexeme hmem
      change first < lexeme.start
      omega

end Lexeme

end ThreeAddress
