import Mathlib.Tactic
import ThreeAddress.Files
import ThreeAddress.Proofs.Folders

/-!
# Outputs that are delivered

The texts of an output are written one after the other.  A text that is
written to the same place as a later one is lost.  The names of the files are
compared beforehand, but a place has many names, such as `x` and `./x`.  So it
depends on the places, and not on the names, whether each output can be read
when all are written.
-/

namespace ThreeAddress

/-- The texts are written in order, each to its path. -/
inductive Written : Folder → List (Path × String) → Folder → Prop
  | nil {folder : Folder} : Written folder [] folder
  | cons {folder next after : Folder} {path : Path} {text : String}
      {rest : List (Path × String)}
      (hwrite : folder.write path text = .ok next)
      (hrest : Written next rest after) :
      Written folder ((path, text) :: rest) after

/-- No two texts that differ have paths to one place. -/
def KeptApart (folder : Folder) (deliveries : List (Path × String)) : Prop :=
  ∀ first ∈ deliveries, ∀ second ∈ deliveries, ∀ place,
    folder.LeadsTo first.1 place → folder.LeadsTo second.1 place →
      first.2 = second.2

theorem keptApart_pair
    {folder : Folder} {first second : Path} {text other : String}
    {place place' : List String}
    (hfirst : folder.LeadsTo first place)
    (hsecond : folder.LeadsTo second place')
    (hne : place ≠ place') :
    KeptApart folder [(first, text), (second, other)] := by
  have hfirst' {found} (h : folder.LeadsTo first found) : found = place :=
    h.unique hfirst
  have hsecond' {found} (h : folder.LeadsTo second found) : found = place' :=
    h.unique hsecond
  simp only [KeptApart, List.forall_mem_cons]
  grind

namespace Written

variable {folder after : Folder} {deliveries : List (Path × String)}

theorem leadsTo_iff
    (h : Written folder deliveries after)
    {path : Path} {place : List String} :
    after.LeadsTo path place ↔ folder.LeadsTo path place := by
  induction h with
  | nil => rfl
  | cons hwrite hrest ih =>
      obtain ⟨_, hleads, rfl⟩ := Folder.exists_leadsTo_of_write hwrite
      exact ih.trans (hleads.leadsTo_put_iff _)

theorem lookup_eq
    (h : Written folder deliveries after)
    {place : List String}
    (hplace : ∀ delivery ∈ deliveries, ¬folder.LeadsTo delivery.1 place) :
    after.files.lookup place = folder.files.lookup place := by
  induction h with
  | nil => rfl
  | cons hwrite hrest ih =>
      obtain ⟨written, hleads, rfl⟩ := Folder.exists_leadsTo_of_write hwrite
      obtain ⟨hfirst, hothers⟩ := List.forall_mem_cons.mp hplace
      have hne : place ≠ written := fun heq => hfirst (heq ▸ hleads)
      refine (ih ?_).trans (Folder.lookup_put_of_ne _ hne)
      intro delivery hdelivery
      exact mt (hleads.leadsTo_put_iff _).mp (hothers delivery hdelivery)

theorem read_eq_of_keptApart
    (h : Written folder deliveries after)
    (hapart : KeptApart folder deliveries) :
    ∀ delivery ∈ deliveries, after.read delivery.1 = .ok delivery.2 := by
  induction h with
  | nil => simp
  | @cons folder next after path text rest hwrite hrest ih =>
      obtain ⟨place, hleads, rfl⟩ := Folder.exists_leadsTo_of_write hwrite
      have hlater : ∀ delivery ∈ rest,
          after.read delivery.1 = .ok delivery.2 := by
        refine ih ?_
        intro first hfirst second hsecond other hleadsf hleadss
        exact hapart first (List.mem_cons_of_mem _ hfirst) second
          (List.mem_cons_of_mem _ hsecond) other
          ((hleads.leadsTo_put_iff _).mp hleadsf)
            ((hleads.leadsTo_put_iff _).mp hleadss)
      have hafter : after.LeadsTo path place :=
        hrest.leadsTo_iff.mpr ((hleads.leadsTo_put_iff _).mpr hleads)
      refine List.forall_mem_cons.mpr ⟨?_, hlater⟩
      by_cases hsame : ∃ delivery ∈ rest,
          (folder.put place (.text text)).LeadsTo delivery.1 place
      · -- The text is written over, by the same text.
        obtain ⟨delivery, hdelivery, hplace⟩ := hsame
        have htext : text = delivery.2 :=
          hapart (path, text) List.mem_cons_self delivery
          (List.mem_cons_of_mem _ hdelivery) place hleads
            ((hleads.leadsTo_put_iff _).mp hplace)
        rw [hafter.read_congr (hrest.leadsTo_iff.mpr hplace),
          hlater delivery hdelivery, htext]
      · push Not at hsame
        exact hafter.read_of_text
          ((hrest.lookup_eq hsame).trans (Folder.lookup_put_self _))

/-- All texts can be read afterwards if and only if no two that differ went to
one place. -/
theorem read_iff_keptApart
    (h : Written folder deliveries after) :
    (∀ delivery ∈ deliveries, after.read delivery.1 = .ok delivery.2) ↔
      KeptApart folder deliveries := by
  refine ⟨?_, h.read_eq_of_keptApart⟩
  intro hread first hfirst second hsecond place hleadsf hleadss
  have hsame := (h.leadsTo_iff.mpr hleadsf).read_congr
      (h.leadsTo_iff.mpr hleadss)
  rw [hread first hfirst, hread second hsecond] at hsame
  exact Except.ok.inj hsame

end Written

/-! ## Translated files -/

theorem length_texts
    {source : String} {stage : Stage} {mode : Mode} {output : Output}
    (h : translate source stage mode = .ok output) :
    output.texts.length = stage.outputs := by
  cases stage with
  | tokens =>
      simp only [translate, Success.bind_eq_ok_iff,
        Success.pure_eq_ok_iff] at h
      obtain ⟨_, _, rfl⟩ := h
      rfl
  | parsed | postOrder | code =>
      simp only [translate, Success.bind_eq_ok_iff,
        Success.pure_eq_ok_iff] at h
      obtain ⟨_, _, _, _, rfl⟩ := h
      rfl
  | typed =>
      simp only [translate, Success.bind_eq_ok_iff,
        Success.pure_eq_ok_iff] at h
      obtain ⟨_, _, rfl⟩ := h
      rfl
  | program =>
      simp only [translate, Success.bind_eq_ok_iff,
        Success.pure_eq_ok_iff] at h
      obtain ⟨_, _, _, _, _, _, rfl⟩ := h
      rfl

theorem length_of_checkOutputs
    {stage : Stage} {optimal : Bool} {outputs : List Path}
    (h : checkOutputs stage optimal outputs = .ok ()) :
    outputs.length = stage.outputs := by
  by_contra hlength
  cases hmode : optimal && !stage.acceptsMode <;>
    simp [checkOutputs, hmode, hlength] at h

section Run

variable {folder after : Folder}

section Write

variable {refuse : String → FileFault → InternalFault} {path : Path}
  {text : String}
  {rest : List (Path × String)}

theorem writeTexts_run_of_ok
    {next : Folder}
    (h : folder.write path text = .ok next) :
    (writeTexts refuse ((path, text) :: rest) : StateM Folder _).run folder =
      (writeTexts refuse rest : StateM Folder _).run next := by
  have hwrite : (Files.writeFile path text : StateM Folder _).run folder =
      (.ok (), next) := by
    simp only [Files.writeFile, StateT.run, h]
  rw [writeTexts, StateT.run_bind, hwrite]
  rfl

theorem writeTexts_run_of_error
    {fault : FileFault}
    (h : folder.write path text = .error fault) :
    (writeTexts refuse ((path, text) :: rest) : StateM Folder _).run folder =
      (.error (refuse path.text fault), folder) := by
  have hwrite : (Files.writeFile path text : StateM Folder _).run folder =
      (.error fault, folder) := by
    simp only [Files.writeFile, StateT.run, h]
  rw [writeTexts, StateT.run_bind, hwrite]
  rfl

end Write

theorem writeTexts_run_eq_ok_iff
    {refuse : String → FileFault → InternalFault}
    {deliveries : List (Path × String)} :
    (writeTexts refuse deliveries : StateM Folder _).run folder =
        (.ok (), after) ↔
      Written folder deliveries after := by
  constructor
  · intro h
    induction deliveries generalizing folder with
    | nil =>
        obtain rfl : folder = after := congrArg Prod.snd h
        exact .nil
    | cons delivery rest ih =>
        obtain ⟨path, text⟩ := delivery
        cases hwrite : folder.write path text with
        | error fault =>
            have := congrArg Prod.fst
                ((writeTexts_run_of_error hwrite).symm.trans h)
            contradiction
        | ok next =>
            rw [writeTexts_run_of_ok hwrite] at h
            exact .cons hwrite (ih h)
  · intro h
    induction h with
    | nil => rfl
    | cons hwrite _ ih =>
        rw [writeTexts_run_of_ok hwrite]
        exact ih

theorem write_run_eq_ok_iff
    {output : Output} {paths : List Path} :
    (output.write paths : StateM Folder _).run folder = (.ok (), after) ↔
      Written folder (paths.zip output.texts) after := by
  cases output <;> exact writeTexts_run_eq_ok_iff

theorem readSource_run_of_ok
    {input : Path} {text : String}
    (h : folder.read input = .ok text) :
    (readSource input : StateM Folder _).run folder =
      (if Text.isAllBlank text then .error (.emptySource input.text)
        else .ok text, folder) := by
  have hread : (Files.readFile input : StateM Folder _).run folder =
      (.ok text, folder) :=
    Prod.ext h rfl
  rw [readSource, StateT.run_bind, hread]
  rfl

theorem readSource_run_of_error
    {input : Path} {fault : FileFault}
    (h : folder.read input = .error fault) :
    (readSource input : StateM Folder _).run folder =
      (.error (.sourceFile input.text fault), folder) := by
  have hread : (Files.readFile input : StateM Folder _).run folder =
      (.error fault, folder) :=
    Prod.ext h rfl
  rw [readSource, StateT.run_bind, hread]
  rfl

theorem readSource_run_eq_ok_iff
    {input : Path} {source : String} :
    (readSource input : StateM Folder _).run folder = (.ok source, after) ↔
      folder.read input = .ok source ∧ Text.isAllBlank source = false ∧
      after = folder := by
  cases hread : folder.read input with
  | error fault =>
      rw [readSource_run_of_error hread]
      refine iff_of_false (fun h => ?_) (by simp)
      have := congrArg Prod.fst h
      contradiction
  | ok text =>
      rw [readSource_run_of_ok hread]
      grind

section Translate

variable {input : Path} {stage : Stage} {optimal : Bool} {outputs : List Path}

theorem translateFile_run_of_ok
    {source : String} {output : Output}
    (hcheck : checkOutputs stage optimal outputs = .ok ())
    (hread : folder.read input = .ok source)
    (hblank : Text.isAllBlank source = false)
    (houtput : translate source stage (if optimal then .optimal else .plain) =
      .ok output) :
    (translateFile input stage optimal outputs : StateM Folder _).run folder =
      (((output.write outputs : StateM Folder _).run folder).1.mapError
        .internal,
        ((output.write outputs : StateM Folder _).run folder).2) := by
  unfold translateFile
  rw [hcheck]
  dsimp only
  rw [StateT.run_bind, readSource_run_eq_ok_iff.mpr ⟨hread, hblank, rfl⟩]
  dsimp only [bind]
  rw [houtput]
  rfl

theorem exists_output_of_translateFile_run
    (h : ((translateFile input stage optimal outputs : StateM Folder _).run
        folder).1 = .ok ()) :
    checkOutputs stage optimal outputs = .ok () ∧
      ∃ source output, folder.read input = .ok source ∧
        Text.isAllBlank source = false ∧
        translate source stage (if optimal then .optimal else .plain) =
          .ok output := by
  unfold translateFile at h
  cases hcheck : checkOutputs stage optimal outputs with
  | error fault =>
      rw [hcheck] at h
      contradiction
  | ok _ =>
      rw [hcheck] at h
      dsimp only at h
      rw [StateT.run_bind] at h
      rcases hsource : (readSource input : StateM Folder _).run folder with
        ⟨result, next⟩
      cases result with
      | error fault =>
          rw [hsource] at h
          contradiction
      | ok source =>
          rw [hsource] at h
          obtain ⟨hread, hblank, rfl⟩ := readSource_run_eq_ok_iff.mp hsource
          dsimp only [bind] at h
          cases houtput : translate source stage
            (if optimal then .optimal else .plain) with
          | error e =>
              rw [houtput] at h
              contradiction
          | ok output => exact ⟨rfl, source, output, hread, hblank, houtput⟩

/-- What a translation of a file needs to succeed, and what it then does. -/
theorem translateFile_run_eq_ok_iff :
    (translateFile input stage optimal outputs : StateM Folder _).run folder =
        (.ok (), after) ↔
      checkOutputs stage optimal outputs = .ok () ∧
      ∃ source output, folder.read input = .ok source ∧
        Text.isAllBlank source = false ∧
        translate source stage (if optimal then .optimal else .plain) =
          .ok output ∧
        Written folder (outputs.zip output.texts) after := by
  constructor
  · intro h
    obtain ⟨hcheck, source, output, hread, hblank, houtput⟩ :=
      exists_output_of_translateFile_run (congrArg Prod.fst h)
    rw [translateFile_run_of_ok hcheck hread hblank houtput] at h
    obtain ⟨hresult, hafter⟩ := Prod.mk.inj h
    refine ⟨hcheck, source, output, hread, hblank, houtput,
      write_run_eq_ok_iff.mp ?_⟩
    exact Prod.ext (Success.mapError_eq_ok_iff.mp hresult) hafter
  · rintro ⟨hcheck, source, output, hread, hblank, houtput, hwritten⟩
    rw [translateFile_run_of_ok hcheck hread hblank houtput,
      write_run_eq_ok_iff.mpr hwritten]
    rfl

end Translate

end Run

/-- A translation that succeeds has written all its outputs.  Each of them can
be read afterwards, by its path, if and only if no two outputs that differ
have paths to one place. -/
theorem outputs_delivered_iff_keptApart
    {folder after : Folder} {input : Path} {stage : Stage} {optimal : Bool}
    {outputs : List Path}
    (h : (translateFile input stage optimal outputs : StateM Folder _).run
      folder = (.ok (), after)) :
    ∃ source output, folder.read input = .ok source ∧
      translate source stage (if optimal then .optimal else .plain) =
        .ok output ∧
      outputs.length = output.texts.length ∧
      ((∀ delivery ∈ outputs.zip output.texts,
          after.read delivery.1 = .ok delivery.2) ↔
        KeptApart folder (outputs.zip output.texts)) := by
  obtain ⟨hcheck, source, output, hread, -, houtput, hwritten⟩ :=
    translateFile_run_eq_ok_iff.mp h
  refine ⟨source, output, hread, houtput, ?_, hwritten.read_iff_keptApart⟩
  rw [length_of_checkOutputs hcheck, length_texts houtput]

/-- A folder with the source of a sum, and an empty folder. -/
def sumFolder : Folder := ⟨[(["in"], .text "a + 2")], [["d"]]⟩

/-- What the tokens of the sum are written as. -/
def sumTokens : String :=
  "<id,1>\t - identifier named a of integer type\n" ++
    "<+>\t - addition operator\n" ++
    "<2>\t - integer constant\n"

/-- What the symbols of the sum are written as. -/
def sumSymbols : String := "1\t - a [integer]\n"

theorem exists_translate_sum :
    ∃ output, translate "a + 2" .tokens .plain = .ok output ∧
      output.texts = [sumTokens, sumSymbols] := by
  have htexts : (translate "a + 2" .tokens .plain).toOption.map Output.texts =
      some [sumTokens, sumSymbols] := by
    decide +kernel
  exact Success.exists_of_toOption htexts

theorem read_sum : sumFolder.read (.ofText "in") = .ok "a + 2" := by
  decide +kernel

theorem translateFile_sum
    {outputs : List Path} {after : Folder}
    (hcheck : checkOutputs .tokens false outputs = .ok ())
    (hwritten : Written sumFolder
      (outputs.zip [sumTokens, sumSymbols]) after) :
    (translateFile (.ofText "in") .tokens false outputs :
      StateM Folder _).run sumFolder = (.ok (), after) := by
  obtain ⟨output, houtput, htexts⟩ := exists_translate_sum
  refine translateFile_run_eq_ok_iff.mpr
    ⟨hcheck, "a + 2", output, read_sum, by decide +kernel, houtput, ?_⟩
  rw [htexts]
  exact hwritten

/-- The way to the second file goes through the empty folder and back. -/
theorem outputs_delivered_beside_folder :
    ∃ after,
      (translateFile (.ofText "in") .tokens false
        [.ofText "x", .ofText "d/../y"] :
        StateM Folder _).run sumFolder = (.ok (), after) ∧
      after.read (.ofText "x") = .ok sumTokens ∧
      after.read (.ofText "d/../y") = .ok sumSymbols := by
  have hfirst : sumFolder.write (.ofText "x") sumTokens =
      .ok (sumFolder.put ["x"] (.text sumTokens)) := by decide +kernel
  have hsecond :
      (sumFolder.put ["x"] (.text sumTokens)).write
          (.ofText "d/../y") sumSymbols =
        .ok ((sumFolder.put ["x"] (.text sumTokens)).put ["y"]
          (.text sumSymbols)) := by decide +kernel
  have hcheck : checkOutputs .tokens false
      [.ofText "x", .ofText "d/../y"] = .ok () := by decide +kernel
  have hrun := translateFile_sum hcheck (.cons hfirst (.cons hsecond .nil))
  have hx : sumFolder.LeadsTo (.ofText "x") ["x"] := by
    change sumFolder.find (.ofText "x") = .ok (.nothing ["x"])
    decide +kernel
  have hy : sumFolder.LeadsTo (.ofText "d/../y") ["y"] := by
    change sumFolder.find (.ofText "d/../y") = .ok (.nothing ["y"])
    decide +kernel
  obtain ⟨source, output, hread, houtput, -, hiff⟩ :=
    outputs_delivered_iff_keptApart hrun
  obtain rfl : "a + 2" = source := Except.ok.inj (read_sum.symm.trans hread)
  obtain ⟨_, hsum, htexts⟩ := exists_translate_sum
  obtain rfl := Except.ok.inj (hsum.symm.trans houtput)
  rw [htexts] at hiff
  have hall := hiff.mpr (keptApart_pair hx hy (by decide))
  exact ⟨_, hrun, hall (.ofText "x", sumTokens) (by simp),
    hall (.ofText "d/../y", sumSymbols) (by simp)⟩

/-- The second name is another one, but leads to the first file.  So this one
does not hold the tokens any more. -/
theorem tokens_lost_under_second_name :
    ∃ after,
      (translateFile (.ofText "in") .tokens false
        [.ofText "x", .ofText "./x"] :
        StateM Folder _).run sumFolder = (.ok (), after) ∧
      after.read (.ofText "x") = .ok sumSymbols ∧ sumSymbols ≠ sumTokens := by
  have hfirst : sumFolder.write (.ofText "x") sumTokens =
      .ok (sumFolder.put ["x"] (.text sumTokens)) := by decide +kernel
  have hsecond :
      (sumFolder.put ["x"] (.text sumTokens)).write
          (.ofText "./x") sumSymbols =
        .ok ((sumFolder.put ["x"] (.text sumTokens)).put ["x"]
          (.text sumSymbols)) := by decide +kernel
  refine ⟨_, translateFile_sum (by decide +kernel)
    (.cons hfirst (.cons hsecond .nil)), ?_, ?_⟩
  · decide +kernel
  · decide +kernel

end ThreeAddress
