import JobHealth.Proofs.Settings.Environment
import JobHealth.Proofs.Settings.Valid
import JobHealth.Yaml.Document
/-!
# `JobHealth.Proofs.Settings.Layers` — every field from the highest layer

Settings are laid together from files and the environment, but each field is
decided by itself.

| who mentions the field       | its value                               |
| :--------------------------- | :-------------------------------------- |
| the environment              | what the variable holds                 |
| files, not the environment   | what the highest of these files says    |
| nobody                       | the default                             |

A value that does not fit its field is a misfit where it is the one that decides,
and goes unnoticed where another one is above it.

All this holds for any reader of YAML, of which only one thing is asked.  What a
file says is what the reader finds there.
-/

namespace JobHealth.Settings

open JobHealth.Json

/-! ## Files -/

/-- What is asked of a reader of YAML: an empty text is an empty document. -/
structure YamlReader.Lawful (read : YamlReader) : Prop where
  empty : read "" = some none

/-- The layer of a file: nothing if it is missing, empty or without content, and otherwise its
record, in which the sections are records. -/
inductive FileSets (read : YamlReader) (files : Files) (path : String) : Value → Prop
  | absent : files path = none → FileSets read files path (.record [])
  | empty : files path = some "" → FileSets read files path (.record [])
  | idle {text : String} : files path = some text → read text = some none →
      FileSets read files path (.record [])
  | document {text : String} {ms : List (String × Value)} : files path = some text →
      read text = some (some (.record ms)) → Sectioned (.record ms) →
      FileSets read files path (.record ms)

section
variable {read : YamlReader} {files : Files}

theorem FileSets.sectioned {path : String} {layer : Value} (h : FileSets read files path layer) :
    Sectioned layer := by
  cases h with
  | absent _ => exact sectioned_empty
  | empty _ => exact sectioned_empty
  | idle _ _ => exact sectioned_empty
  | document _ _ hsectioned => exact hsectioned

theorem fileLayers_cons {path : String} {text : String} {layer : Value}
    (hfile : files path = some text) (hlayer : fileLayer read text = some layer)
    {paths : List String} {layers : List Value} (h : fileLayers read files paths = some layers) :
    fileLayers read files (path :: paths) = some (layer :: layers) := by
  rw [fileLayers, hfile]
  simp only [hlayer, h]

/-- Files that are there are read, and those that are not mention nothing. -/
theorem exists_fileLayers (hread : read.Lawful) {paths : List String} {layers : List Value}
    (h : List.Forall₂ (FileSets read files) paths layers) :
    ∃ found, fileLayers read files paths = some found ∧ (∀ l ∈ found, Sectioned l) ∧
      ∀ f, highest? f found = highest? f layers := by
  induction h with
  | nil => exact ⟨[], rfl, nofun, fun _ => rfl⟩
  | @cons path layer paths layers hfile _ ih =>
      obtain ⟨found, hfound, hsectioned, hhighest⟩ := ih
      have hmore : ∀ f, highest? f (layer :: found) = highest? f (layer :: layers) := by
        intro f
        rw [highest?_cons, highest?_cons, hhighest]
      have hall : ∀ l ∈ layer :: found, Sectioned l :=
        List.forall_mem_cons.mpr ⟨hfile.sectioned, hsectioned⟩
      cases hfile with
      | absent habsent =>
          refine ⟨found, ?_, hsectioned, fun f => ?_⟩
          · rw [fileLayers, habsent]
            exact hfound
          · rw [hhighest, highest?_cons]
            exact Option.or_none.symm
      | empty htext =>
          refine ⟨_, fileLayers_cons htext ?_ hfound, hall, hmore⟩
          rw [fileLayer, hread.empty]
      | idle htext hvalue =>
          refine ⟨_, fileLayers_cons htext ?_ hfound, hall, hmore⟩
          rw [fileLayer, hvalue]
      | document htext hvalue _ =>
          refine ⟨_, fileLayers_cons htext ?_ hfound, hall, hmore⟩
          rw [fileLayer, hvalue]

theorem fileLayers_congr {files' : Files} {paths : List String}
    (h : ∀ path ∈ paths, files' path = files path) :
    fileLayers read files' paths = fileLayers read files paths := by
  induction paths with
  | nil => rfl
  | cons path paths ih =>
      obtain ⟨hpath, hpaths⟩ := List.forall_mem_cons.mp h
      rw [fileLayers, fileLayers, hpath, ih hpaths]

/-- Settings do not depend on files that are none of their origin. -/
theorem load_congr {origin : Origin} {files' : Files} (env : Environment)
    (h : ∀ path ∈ origin.paths, files' path = files path) :
    load read origin files' env = load read origin files env := by
  rw [load, load, extract, extract, fileLayers_congr h]

/-! ## The field that decides -/

/-- Each field is decided by the value that is given for it, or else by its default.  Settings are
extracted if all these values fit, and otherwise one that does not is named as the misfit.  What was
extracted is loaded if it is valid. -/
structure DecidedBy (read : YamlReader) (origin : Origin) (files : Files) (env : Environment)
    (value? : Field → Option Value) : Prop where
  extracted : ∀ s, extract read origin files env = .ok s ↔
    ∀ f : Field, f.shown s = (value? f).getD (f.shown Settings.default)
  refused : (∃ fault, extract read origin files env = .error fault) ↔
    ∃ f v, value? f = some v ∧ ¬ f.Fits v
  misfit : ∀ fault, extract read origin files env = .error fault →
    ∃ m f v, fault = .misfit origin m ∧ m.path = f.path ∧ value? f = some v ∧ ¬ f.Fits v
  loaded : ∀ s, load read origin files env = .ok s ↔ extract read origin files env = .ok s ∧ s.Valid
  not_loaded : ∀ fault, extract read origin files env = .error fault →
    load read origin files env = .error fault

theorem load_eq_ok_iff {origin : Origin} {env : Environment} {s : Settings} :
    load read origin files env = .ok s ↔ extract read origin files env = .ok s ∧ s.Valid := by
  rw [load]
  cases extract read origin files env with
  | error fault =>
      constructor
      · intro h
        cases h
      · rintro ⟨h, -⟩
        cases h
  | ok s' =>
      have hcheck : s'.check.mapError LoadFault.invalid = .ok s ↔ s'.check = .ok s := by
        cases s'.check <;> simp [Except.mapError]
      simp only [hcheck, check_eq_ok_iff, Except.ok.injEq]
      constructor
      · rintro ⟨rfl, hvalid⟩
        exact ⟨rfl, hvalid⟩
      · rintro ⟨rfl, hvalid⟩
        exact ⟨rfl, hvalid⟩

/-- Values that a fault cannot tell apart show the same in settings. -/
theorem shown_eq_getD_congr {f : Field} {s : Settings} {fallback : Value} {v w : Option Value}
    (h : v.map Value.found = w.map Value.found) :
    f.shown s = v.getD fallback ↔ f.shown s = w.getD fallback := by
  cases v with
  | none => rw [Option.map_eq_none_iff.mp h.symm]
  | some v =>
      obtain ⟨w, rfl, hfound⟩ := Option.map_eq_some_iff.mp h.symm
      rw [Option.getD_some, Option.getD_some]
      have hfits := f.fits_shown s
      constructor
      · intro hv
        rw [← hv] at hfound
        exact (hfits.eq_of_found hfound).symm
      · intro hw
        rw [← hw] at hfound
        exact (hfits.eq_of_found hfound.symm).symm

/-- A layer that is decoded decides with what it mentions. -/
theorem decidedBy_of_layer {origin : Origin} {env : Environment} {layer : Value}
    {value? : Field → Option Value} (hsectioned : Sectioned layer)
    (hextract : extract read origin files env = (decode .lenient layer).mapError (.misfit origin))
    (hvalue : ∀ f : Field, (f.mentioned? layer).map Value.found = (value? f).map Value.found) :
    DecidedBy read origin files env value? := by
  have hextracted : ∀ s, extract read origin files env = .ok s ↔
      ∀ f : Field, f.shown s = (value? f).getD (f.shown Settings.default) := by
    intro s
    have hok : extract read origin files env = .ok s ↔ decode .lenient layer = .ok s := by
      rw [hextract]
      cases decode .lenient layer <;> simp [Except.mapError]
    rw [hok, decode_eq_ok_iff hsectioned]
    exact forall_congr' fun f => shown_eq_getD_congr (hvalue f)
  have hmisfit : ∀ fault, extract read origin files env = .error fault →
      ∃ m f v, fault = .misfit origin m ∧ m.path = f.path ∧ value? f = some v ∧ ¬ f.Fits v := by
    intro fault herror
    rw [hextract] at herror
    cases hdecode : decode .lenient layer with
    | ok s => rw [hdecode] at herror; cases herror
    | error m =>
        rw [hdecode] at herror
        obtain rfl := Except.error.inj herror
        obtain ⟨f, w, hmention, hfits, hpath⟩ := decode_eq_error hsectioned hdecode
        have hfound := hvalue f
        rw [hmention] at hfound
        obtain ⟨v, hv, hvw⟩ := Option.map_eq_some_iff.mp hfound.symm
        refine ⟨m, f, v, rfl, hpath, hv, fun hfits_v => hfits ?_⟩
        rwa [hfits_v.eq_of_found hvw.symm]
  refine ⟨hextracted, ⟨?_, ?_⟩, hmisfit, fun _ => load_eq_ok_iff, ?_⟩
  · rintro ⟨fault, herror⟩
    obtain ⟨m, f, v, -, -, hv, hfits⟩ := hmisfit fault herror
    exact ⟨f, v, hv, hfits⟩
  · rintro ⟨f, v, hv, hfits⟩
    cases h : extract read origin files env with
    | error fault => exact ⟨fault, rfl⟩
    | ok s =>
        -- Settings show what fits, and these would show the value.
        have hshown := (hextracted s).mp h f
        rw [hv, Option.getD_some] at hshown
        exact absurd (hshown ▸ f.fits_shown s) hfits
  · intro fault herror
    rw [load, herror]

/-- The environment decides, and where it holds nothing the highest file. -/
theorem decidedBy_layers (hread : read.Lawful) {origin : Origin} {env : Environment}
    {layers : List Value} (hfiles : List.Forall₂ (FileSets read files) origin.paths layers)
    (henv : SingleFields env) :
    DecidedBy read origin files env fun f => (environmentValue? f env).or (highest? f layers) := by
  obtain ⟨found, hfound, hsectioned, hhighest⟩ := exists_fileLayers hread hfiles
  have hall : ∀ l ∈ found ++ [environmentLayer env], Sectioned l := by
    intro l hl
    rcases List.mem_append.mp hl with hl | hl
    · exact hsectioned l hl
    · exact List.mem_singleton.mp hl ▸ sectioned_environmentLayer henv
  refine decidedBy_of_layer (sectioned_overlayAll hall) ?_ ?_
  · rw [extract, hfound]
  · intro f
    rw [mentioned?_overlayAll hall, highest?_append, highest?_singleton, hhighest, Option.map_or,
      mentioned?_environmentLayer henv, ← Option.map_or]

end

/-- **Each field takes its value from the highest layer that mentions it**: from the environment,
the local file, the file of the project, or the default.  A value that does not fit makes loading
fail exactly if it is the one that is taken.  A file that is named stands in the place of the
project's two files, which do not matter then. -/
theorem highest_layer_decides (read : YamlReader) (hread : read.Lawful) (files : Files)
    (env : Environment) (henv : SingleFields env) :
    (∀ config localConfig, FileSets read files ".flakescan/config.yaml" config →
      FileSets read files ".flakescan/local.yaml" localConfig →
        DecidedBy read .project files env fun f =>
          (environmentValue? f env).or ((f.mentioned? localConfig).or (f.mentioned? config))) ∧
    (∀ path layer, FileSets read files path layer →
      DecidedBy read (.file path) files env fun f =>
        (environmentValue? f env).or (f.mentioned? layer)) ∧
    (∀ (path : String) (files' : Files), files' path = files path →
      load read (.file path) files' env = load read (.file path) files env) ∧
    ∀ (f : Field) (name : String), name.toList.map smallLetter = f.variableName.toList →
      keyOf? name = some f.path := by
  refine ⟨?_, ?_, ?_, ?_⟩
  · intro config localConfig hconfig hlocal
    have hfiles : List.Forall₂ (FileSets read files) Origin.project.paths [config, localConfig] :=
      .cons hconfig (.cons hlocal .nil)
    have hdecided := decidedBy_layers hread hfiles henv
    simpa only [highest?_cons _ config, highest?_singleton] using hdecided
  · intro path layer hfile
    have hfiles : List.Forall₂ (FileSets read files) (Origin.file path).paths [layer] :=
      .cons hfile .nil
    have hdecided := decidedBy_layers hread hfiles henv
    simpa only [highest?_singleton] using hdecided
  · intro path files' hpath
    exact load_congr env fun p hp => List.mem_singleton.mp hp ▸ hpath
  · intro f name hname
    exact keyOf?_eq_path hname

theorem lawful_readYaml : YamlReader.Lawful fun text => Yaml.read? text.toList :=
  ⟨by with_unfolding_all rfl⟩

/-- A file of the project with a truth value for the team, a local file that names the team and
takes the directory back, and a variable in letters of both sizes. -/
theorem highest_layer_of_overridden_flag :
    let config := "concourse:\n  team: true\nlogging:\n  log_dir: /tmp\n"
    let localConfig := "concourse:\n  team: data\nlogging:\n  log_dir: ~\n"
    let files : Files := fun path =>
      if path = ".flakescan/config.yaml" then some config
      else if path = ".flakescan/local.yaml" then some localConfig
      else none
    let env : Environment := [("FlakeScan_Logging__LEVEL", "debug"), ("HOME", "/root")]
    let settings : Settings := ⟨⟨"data", 50, 100, 60, 10⟩, ⟨"debug", "pretty", none, "daily"⟩⟩
    let read : YamlReader := fun text => Yaml.read? text.toList
    read.Lawful ∧ SingleFields env ∧ load read .project files env = .ok settings ∧
      ∃ fault, load read (.file ".flakescan/config.yaml") files env = .error fault := by
  intro config localConfig files env settings read
  have hsectioned : ∀ server logging : List (String × Value), Sectioned
      (.record [("concourse", .record server), ("logging", .record logging)]) := by
    intro server logging
    refine ⟨_, rfl, fun f v hv => ?_⟩
    cases f with
    | server f => exact ⟨server, by simpa [Field.title, lookupLast_cons] using hv.symm⟩
    | logging f => exact ⟨logging, by simpa [Field.title, lookupLast_cons] using hv.symm⟩
  have hreadConfig : read config = some (some (.record
      [("concourse", .record [("team", .flag true)]),
        ("logging", .record [("log_dir", .text "/tmp")])])) := by
    subst config read
    with_unfolding_all rfl
  have hreadLocal : read localConfig = some (some (.record
      [("concourse", .record [("team", .text "data")]),
        ("logging", .record [("log_dir", .null)])])) := by
    subst localConfig read
    with_unfolding_all rfl
  have hconfig : FileSets read files ".flakescan/config.yaml" _ :=
    .document rfl hreadConfig (hsectioned _ _)
  have hlocal : FileSets read files ".flakescan/local.yaml" _ :=
    .document rfl hreadLocal (hsectioned _ _)
  have hlevel : keyOf? "FlakeScan_Logging__LEVEL" = some ["logging", "level"] := by
    decide +kernel
  have hhome : keyOf? "HOME" = none := by decide +kernel
  have henv : SingleFields env := by
    refine ⟨?_, by decide +kernel⟩
    intro v hv key hkey f hf
    rcases List.mem_pair.mp hv with rfl | rfl
    · obtain rfl := Option.some.inj (hlevel.symm.trans hkey)
      exact ⟨"level", by rw [Option.some.inj hf]⟩
    · rw [hhome] at hkey
      cases hkey
  have hvalue : ∀ f : Field, environmentValue? f env =
      if ["logging", "level"] = f.path then some (.text "debug") else none := by
    intro f
    have hdebug : valueOf "debug" = .text "debug" := rfl
    simp only [environmentValue?, env, List.findSome?_cons, List.findSome?_nil, variableValue?,
      hlevel, hhome, hdebug, Option.some.injEq, reduceCtorEq, if_false]
    split
    · next h => exact h.symm
    · next h => exact h.symm
  obtain ⟨hproject, hfile, -⟩ :=
    highest_layer_decides read lawful_readYaml files env henv
  have hdecided := hproject _ _ hconfig hlocal
  have halone := hfile _ _ hconfig
  refine ⟨lawful_readYaml, henv,
    (hdecided.loaded settings).mpr ⟨(hdecided.extracted settings).mpr ?_, ?_⟩, ?_⟩
  · intro f
    rw [hvalue]
    cases f with
    | server f => cases f <;> rfl
    | logging f => cases f <;> rfl
  · exact ⟨by decide, by decide, by decide, by decide, by decide, by decide⟩
  · have hflag : ¬ (Field.server .team).Fits (.flag true) := by
      rintro ⟨_, h⟩
      cases h
    obtain ⟨fault, hfault⟩ := halone.refused.mpr
      ⟨.server .team, .flag true, by rw [hvalue]; rfl, hflag⟩
    exact ⟨fault, halone.not_loaded fault hfault⟩

end JobHealth.Settings
