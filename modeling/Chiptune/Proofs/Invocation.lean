import Chiptune.Command
import Chiptune.Proofs.Limit

/-!
# Invocations

What is left of a rendering behind the program: the exit status, the output file and the warning
about its duration.

* `Invocation.Refuses`, `Invocation.Admits`: why an invocation comes to nothing, and that it does
  not. Always one of the two holds (`Invocation.refused_or_admitted`).
* `Invocation.asked`: the rendering that is asked for. `Invocation.result_of_admits`: that rendering
  is what an admitted invocation comes to.
* `Invocation.allOrNothing_iff`: the output file is left as it was or is the whole encoding, but for
  a WAV file with a rate of zero, which is begun and left unfinished.
* `Invocation.truncated_iff`: the warning is right but where the piece ends at the limit.
-/

namespace Chiptune

/-- The rendering without its limit. -/
def Rendering.unlimited (r : Rendering) : Rendering := { r with limit := none }

/-- A limited rendering has as many levels as the limit, or as the unlimited one where that is
shorter. -/
theorem Rendering.length_levels_limit {r : Rendering} (hr : r.rate ≠ 0) {limit : Nat}
    (hl : r.limit = some limit) (text : List Char) :
    (r.levels text).length = min limit (r.unlimited.levels text).length := by
  have limited : r.setup = ⟨r.rate, some limit⟩ := by rw [setup, hl]
  have free : r.unlimited.rate ≠ 0 := hr
  simp only [levels, List.length_map, Array.length_toList, samples_eq hr, samples_eq free,
    performance, limited]
  exact Performance.size_run_limit (Performance.withinLimit_start ⟨r.rate, some limit⟩ _)

namespace Command

/-- What the program finds when it is called. -/
structure Invocation where
  settings : Settings
  options : Options
  origin : Origin
  /-- The bytes of the source, or why they could not be read. -/
  content : Except FileError ByteArray
  freshSeed : UInt64

namespace Invocation

variable (v : Invocation)

/-- What the invocation comes to. -/
def result : Except Failure Output :=
  render v.settings v.options ⟨v.origin, decoded v.content⟩ v.freshSeed

/-- The output file after the invocation, where it held `before` or there was none. -/
def fileAfter (before : Option (List UInt8)) : Option (List UInt8) :=
  (written? v.result).or before

/-! ## What is asked for -/

/-- Why the invocation comes to nothing. -/
inductive Refuses : Failure → Prop
  | settings {path : String} {content : Except FileError String} {error : Error}
      (named : v.settings = .named path content) (useless : Config.load content = .error error) :
      Refuses (.settings path error)
  | unreadable {given : Config} {cause : FileError} (config : v.settings.config = .ok given)
      (content : v.content = .error cause) : Refuses (.source v.origin cause)
  | notUtf8 {given : Config} {bytes : ByteArray} (config : v.settings.config = .ok given)
      (content : v.content = .ok bytes) (undecodable : String.fromUTF8? bytes = none) :
      Refuses (.source v.origin .notUtf8)
  | tooLong {given : Config} {bytes : ByteArray} {text : String} {limit : Nat}
      (config : v.settings.config = .ok given) (content : v.content = .ok bytes)
      (decodes : String.fromUTF8? bytes = some text) (most : given.maxSourceLength = some limit)
      (long : limit < text.length) : Refuses (.refused (.sourceTooLong text.length limit))

/-- The settings are there, and they admit the text that the source holds. -/
structure Admits (given : Config) (text : String) : Prop where
  config : v.settings.config = .ok given
  decodes : ∃ bytes, v.content = .ok bytes ∧ String.fromUTF8? bytes = some text
  length_le : ∀ limit ∈ given.maxSourceLength, text.length ≤ limit

/-- The rendering that is asked for. What the command line says comes before the settings. -/
def asked (given : Config) : Rendering :=
  let rate := v.options.rate.getD given.sampleRate
  { rate
    seed := ((v.options.seed.or given.seed).map UInt64.ofNat).getD v.freshSeed
    limit := given.maxDuration.map fun seconds =>
      Scalar.toCount (Scalar.greatest seconds 0 * Scalar.ofNat rate) }

/-- The whole output file: the bytes of the levels, behind a header where it is a WAV file. -/
def encoding (given : Config) (text : String) : List UInt8 :=
  let r := v.asked given
  if v.options.raw then r.bytes text.toList
  else Wav.header (Wav.mono r.rate) (2 * (r.levels text.toList).length) ++ r.bytes text.toList

/-- What the invocation comes to where it is admitted. -/
def output (given : Config) (text : String) : Output :=
  let r := v.asked given
  { file :=
      if v.options.raw ∨ r.rate ≠ 0 then v.encoding given text else Wav.unfinished
    complete := v.options.raw ∨ r.rate ≠ 0
    truncated := r.limit.any (· ≤ (r.levels text.toList).length) }

/-- The invocation is refused and leaves the output file as it was, or it succeeds and leaves the
whole file. -/
def AllOrNothing (before : Option (List UInt8)) : Prop :=
  (∃ failure, v.Refuses failure ∧ v.result = .error failure ∧ status v.result = 1 ∧
      v.fileAfter before = before) ∨
    ∃ given text, v.Admits given text ∧ status v.result = 0 ∧
      v.fileAfter before = some (v.encoding given text)

variable {v : Invocation} {given : Config} {text : String}

/-! ## What comes of it -/

theorem Admits.decoded_eq (h : v.Admits given text) : decoded v.content = .ok text := by
  obtain ⟨bytes, content, decodes⟩ := h.decodes
  rw [content, decoded, decodes]

/-- There is one way only to admit an invocation. -/
theorem Admits.unique {given' : Config} {text' : String} (h : v.Admits given text)
    (h' : v.Admits given' text') : given = given' ∧ text = text' :=
  ⟨Except.ok.inj (h.config.symm.trans h'.config),
    Except.ok.inj (h.decoded_eq.symm.trans h'.decoded_eq)⟩

/-- Useless settings are refused where a file is named. -/
theorem refuses_of_config {failure : Failure} (h : v.settings.config = .error failure) :
    v.Refuses failure := by
  cases named : v.settings with
  | home content =>
    rw [named, Settings.config] at h
    split at h <;> cases h
  | named path content =>
    rw [named, Settings.config] at h
    split at h
    · cases h
    · rename_i error useless
      cases h
      exact .settings named useless

theorem checkSource_of_le (h : ∀ limit ∈ given.maxSourceLength, text.length ≤ limit) :
    given.checkSource text.toList = .ok () := by
  unfold Config.checkSource
  split
  · rfl
  · rename_i limit most
    have le := h limit most
    rw [String.length_toList, if_neg (Nat.not_lt.mpr le)]

theorem checkSource_of_lt {limit : Nat} (most : given.maxSourceLength = some limit)
    (long : limit < text.length) :
    given.checkSource text.toList = .error (.sourceTooLong text.length limit) := by
  simp [Config.checkSource, most, long, String.length_toList]

/-- There is a whole file, but for a WAV file with a rate of zero. -/
theorem encoded?_eq (v : Invocation) (given : Config) (text : String) :
    (if v.options.raw then some (Pcm.bytes ((v.asked given).levels text.toList))
      else Wav.encode? (v.asked given).rate ((v.asked given).levels text.toList))
      = if v.options.raw ∨ (v.asked given).rate ≠ 0 then some (v.encoding given text)
        else none := by
  unfold encoding Wav.encode?
  by_cases raw : v.options.raw
  · simp [raw, Rendering.bytes]
  · by_cases rate : (v.asked given).rate = 0
    · simp [raw, rate]
    · simp [raw, rate, Rendering.bytes]

/-- With settings and a text, only the length of the text is left to be looked at. -/
theorem result_of_text (config : v.settings.config = .ok given)
    (decodes : decoded v.content = .ok text) :
    v.result = match given.checkSource text.toList with
      | .error error => .error (.refused error)
      | .ok () => .ok (v.output given text) := by
  rw [result, render, config, decodes]
  show (match given.checkSource text.toList with
    | .error error => throw (Failure.refused error)
    | .ok () => _) = _
  cases given.checkSource text.toList with
  | error error => rfl
  | ok =>
    show Except.ok (Output.mk _ _ _) = Except.ok (Output.mk _ _ _)
    have encoded := encoded?_eq v given text
    congr 2
    · refine (congrArg (Option.getD · Wav.unfinished) encoded).trans ?_
      split <;> rfl
    · refine (congrArg Option.isSome encoded).trans ?_
      split <;> simp_all
    · have limit : (v.asked given).limit = (v.options.override given).maxSamples := rfl
      rw [limit]
      cases (v.options.override given).maxSamples <;> rfl

/-- **An invocation is refused or admitted**, and nothing is rendered of a refused one. -/
theorem refused_or_admitted (v : Invocation) :
    (∃ failure, v.Refuses failure ∧ v.result = .error failure) ∨
      ∃ given text, v.Admits given text := by
  cases config : v.settings.config with
  | error failure =>
    refine .inl ⟨failure, refuses_of_config config, ?_⟩
    rw [result, render, config]
    rfl
  | ok given =>
    cases content : v.content with
    | error cause =>
      refine .inl ⟨_, .unreadable config content, ?_⟩
      rw [result, render, config, content]
      rfl
    | ok bytes =>
      cases decodes : String.fromUTF8? bytes with
      | none =>
        refine .inl ⟨_, .notUtf8 config content decodes, ?_⟩
        rw [result, render, config, content, decoded, decodes]
        rfl
      | some text =>
        by_cases short : ∀ limit ∈ given.maxSourceLength, text.length ≤ limit
        · exact .inr ⟨given, text, config, ⟨bytes, content, decodes⟩, short⟩
        · obtain ⟨limit, most, long⟩ : ∃ limit, given.maxSourceLength = some limit ∧
              limit < text.length := by simpa using short
          refine .inl ⟨_, .tooLong config content decodes most long, ?_⟩
          have text_eq : decoded v.content = .ok text := by rw [content, decoded, decodes]
          rw [result_of_text config text_eq, checkSource_of_lt most long]

/-- An admitted invocation comes to the rendering that is asked for. -/
theorem result_of_admits (h : v.Admits given text) :
    v.result = .ok (v.output given text) := by
  rw [result_of_text h.config h.decoded_eq, checkSource_of_le h.length_le]

/-! ## All or nothing -/

/-- **A WAV file with a rate of zero is begun and left unfinished.** -/
theorem unfinished_of_rate_zero (h : v.Admits given text) (raw : v.options.raw = false)
    (rate : (v.asked given).rate = 0) (before : Option (List UInt8)) :
    status v.result = 101 ∧ v.fileAfter before = some Wav.unfinished := by
  rw [fileAfter, result_of_admits h]
  simp [status, Output.status, written?, output, raw, rate]

/-- Everything else that is admitted leaves the whole file. -/
theorem encoding_of_admits (h : v.Admits given text)
    (whole : v.options.raw ∨ (v.asked given).rate ≠ 0) (before : Option (List UInt8)) :
    status v.result = 0 ∧ v.fileAfter before = some (v.encoding given text) := by
  rw [fileAfter, result_of_admits h]
  simp [status, Output.status, written?, output, whole]

theorem not_allOrNothing_of_status {before : Option (List UInt8)} (h : status v.result = 101) :
    ¬ v.AllOrNothing before := by
  rintro (⟨failure, -, -, refused, -⟩ | ⟨given, text, -, done, -⟩) <;> omega

/-- **A rendering is all or nothing, but for a WAV file with a rate of zero.** That one is begun: the
program ends with a status of 101 and leaves an unfinished file. -/
theorem allOrNothing_iff (v : Invocation) (before : Option (List UInt8)) :
    (v.AllOrNothing before ↔
        (v.options.raw ∨ ∀ given text, v.Admits given text → (v.asked given).rate ≠ 0)) ∧
      (v.AllOrNothing before ∨
        status v.result = 101 ∧ v.fileAfter before = some Wav.unfinished) := by
  rcases refused_or_admitted v with ⟨failure, refuses, result⟩ | ⟨given, text, admits⟩
  · have nothing : v.AllOrNothing before :=
      .inl ⟨failure, refuses, result, by rw [result]; rfl, by rw [fileAfter, result]; rfl⟩
    refine ⟨iff_of_true nothing (.inr fun given text admits => ?_), .inl nothing⟩
    cases result.symm.trans (result_of_admits admits)
  · by_cases whole : v.options.raw ∨ (v.asked given).rate ≠ 0
    · obtain ⟨done, file⟩ := encoding_of_admits admits whole before
      have all : v.AllOrNothing before := .inr ⟨given, text, admits, done, file⟩
      refine ⟨iff_of_true all (whole.imp_right fun rate given' text' admits' => ?_), .inl all⟩
      obtain ⟨rfl, -⟩ := admits.unique admits'
      exact rate
    · obtain ⟨raw, rate⟩ := not_or.mp whole
      have begun := unfinished_of_rate_zero admits (by simpa using raw) (by simpa using rate) before
      refine ⟨iff_of_false (not_allOrNothing_of_status begun.1) ?_, .inr begun⟩
      rintro (raw' | rates)
      · exact raw raw'
      · exact rate (rates given text admits)

/-- It holds of a WAV file at 8 samples a second. -/
theorem allOrNothing_iff_wav :
    let v : Invocation :=
      ⟨.home (.error .notFound), ⟨some 8, none, false⟩, .argument, .ok "r4".toUTF8, 0⟩
    v.Admits .default "r4" ∧ (∀ given text, v.Admits given text → (v.asked given).rate ≠ 0) ∧
      v.AllOrNothing none := by
  intro v
  have admits : v.Admits .default "r4" := ⟨rfl, ⟨_, rfl, by decide +kernel⟩, nofun⟩
  have rates : ∀ given text, v.Admits given text → (v.asked given).rate ≠ 0 := by
    intro given text _ zero
    cases zero
  exact ⟨admits, rates, (allOrNothing_iff v none).1.mpr (.inr rates)⟩

/-- At a rate of zero the same command ends with an unfinished file. -/
theorem not_allOrNothing_rateZero :
    let v : Invocation :=
      ⟨.home (.error .notFound), ⟨some 0, none, false⟩, .argument, .ok "r4".toUTF8, 0⟩
    v.Admits .default "r4" ∧ status v.result = 101 ∧ v.fileAfter none = some Wav.unfinished ∧
      ¬ v.AllOrNothing none := by
  intro v
  have admits : v.Admits .default "r4" := ⟨rfl, ⟨_, rfl, by decide +kernel⟩, nofun⟩
  obtain ⟨ended, file⟩ := unfinished_of_rate_zero admits rfl rfl none
  exact ⟨admits, ended, file, not_allOrNothing_of_status ended⟩

/-! ## The warning -/

/-- The warning is given exactly where there is a limit and less is written than would be without
it. -/
def WarnsTruly (v : Invocation) (given : Config) (text : String) (output : Output) : Prop :=
  output.truncated = true ↔
    (v.asked given).limit.isSome ∧
      ((v.asked given).levels text.toList).length
        < ((v.asked given).unlimited.levels text.toList).length

/-- **The warning tells the truth, but where the piece ends at the limit.** It is given where the
piece would have as many levels as the limit, or more. -/
theorem truncated_iff (h : v.Admits given text) (rate : (v.asked given).rate ≠ 0) :
    ∃ output, v.result = .ok output ∧ output.file = v.encoding given text ∧
      (output.truncated = true ↔ ∃ limit ∈ (v.asked given).limit,
        limit ≤ ((v.asked given).unlimited.levels text.toList).length) ∧
      (v.WarnsTruly given text output ↔
        (v.asked given).limit ≠ some ((v.asked given).unlimited.levels text.toList).length) := by
  refine ⟨v.output given text, result_of_admits h, by simp [output, rate], ?_⟩
  simp only [WarnsTruly, output]
  cases limited : (v.asked given).limit with
  | none => simp
  | some limit =>
    have length := Rendering.length_levels_limit rate limited text.toList
    simp only [length, Option.any_some, decide_eq_true_eq, Option.mem_some_iff, exists_eq_left',
      Option.isSome_some, true_and, ne_eq, Option.some.injEq]
    omega

/-- Settings with a limit of half a second. -/
theorem read_halfSecond :
    Config.read "max_duration_secs: 0.5\n" = .ok ⟨44100, none, none, some 0.5⟩ := by
  have fields : (Config.read "max_duration_secs: 0.5\n").toOption.map
      (fun c => (c.sampleRate, c.seed, c.maxSourceLength, c.maxDuration))
        = some (44100, none, none, some 0.5) := by decide +kernel
  cases read : Config.read "max_duration_secs: 0.5\n" with
  | error fault => simp [read, Except.toOption] at fields
  | ok config =>
    obtain ⟨rate, seed, length, duration⟩ := config
    simpa [read, Except.toOption] using fields

/-- Half a second is four samples at a rate of eight. -/
theorem admits_halfSecond {bytes : ByteArray} {text : String}
    (decodes : String.fromUTF8? bytes = some text) :
    let v : Invocation :=
      ⟨.named "limits.yaml" (.ok "max_duration_secs: 0.5\n"), ⟨some 8, none, true⟩, .argument,
        .ok bytes, 0⟩
    v.Admits ⟨44100, none, none, some 0.5⟩ text ∧
      v.asked ⟨44100, none, none, some 0.5⟩ = ⟨8, 0, some 4⟩ := by
  intro v
  have config : v.settings.config = .ok ⟨44100, none, none, some 0.5⟩ := by
    simp [v, Settings.config, Config.load, read_halfSecond]
  have limit : Scalar.toCount (Scalar.greatest (0.5 : Float) 0 * Scalar.ofNat 8) = 4 := by
    decide +kernel
  refine ⟨⟨config, ⟨bytes, rfl, decodes⟩, nofun⟩, ?_⟩
  exact congrArg (fun n => (⟨8, 0, some n⟩ : Rendering)) limit

/-- A rest by itself has the levels of its length. -/
theorem length_levels_rest {text : List Char} {length : Option Length}
    (reading : Rendering.score text = [.rest length]) :
    ((Rendering.unlimited ⟨8, 0, some 4⟩).levels text).length
      = ((Performance.start (.ofSeed 0) : Performance Float).step ⟨8, none⟩
          (.rest length)).timeline.size := by
  rw [Rendering.levels, List.length_map, Array.length_toList, Rendering.samples_eq (by decide),
    Rendering.performance, reading, Performance.run_of_step rfl rfl, Performance.run_of_end rfl]
  rfl

/-- It holds of a rest of a second, of which half is written. -/
theorem truncated_iff_longRest :
    let v : Invocation :=
      ⟨.named "limits.yaml" (.ok "max_duration_secs: 0.5\n"), ⟨some 8, none, true⟩, .argument,
        .ok "r2".toUTF8, 0⟩
    ∃ given, v.Admits given "r2" ∧ (v.asked given).rate ≠ 0 ∧
      ∃ output, v.result = .ok output ∧ output.truncated = true ∧
        v.WarnsTruly given "r2" output := by
  intro v
  have decodes : String.fromUTF8? "r2".toUTF8 = some "r2" := by decide +kernel
  obtain ⟨admits, asked⟩ := admits_halfSecond decodes
  have rate : (v.asked ⟨44100, none, none, some 0.5⟩).rate ≠ 0 := by rw [asked]; decide
  have reading : Rendering.score "r2".toList = [.rest (Length.single? 2)] := by decide +kernel
  have whole : ((Rendering.unlimited ⟨8, 0, some 4⟩).levels "r2".toList).length = 8 := by
    rw [length_levels_rest reading]
    decide +kernel
  obtain ⟨output, result, -, truncated, truly⟩ := truncated_iff admits rate
  rw [asked, whole] at truncated truly
  exact ⟨_, admits, rate, output, result, truncated.mpr ⟨4, rfl, by decide⟩,
    truly.mpr (by decide)⟩

/-- A rest of half a second is written whole, and the warning is given all the same. -/
theorem truncated_wholeRest :
    let v : Invocation :=
      ⟨.named "limits.yaml" (.ok "max_duration_secs: 0.5\n"), ⟨some 8, none, true⟩, .argument,
        .ok "r4".toUTF8, 0⟩
    ∃ given output, v.Admits given "r4" ∧ (v.asked given).rate ≠ 0 ∧ v.result = .ok output ∧
      output.truncated = true ∧
      ((v.asked given).levels "r4".toList).length
        = ((v.asked given).unlimited.levels "r4".toList).length ∧
      ¬ v.WarnsTruly given "r4" output := by
  intro v
  have decodes : String.fromUTF8? "r4".toUTF8 = some "r4" := by decide +kernel
  obtain ⟨admits, asked⟩ := admits_halfSecond decodes
  have rate : (v.asked ⟨44100, none, none, some 0.5⟩).rate ≠ 0 := by rw [asked]; decide
  have reading : Rendering.score "r4".toList = [.rest (Length.single? 4)] := by decide +kernel
  have whole : ((Rendering.unlimited ⟨8, 0, some 4⟩).levels "r4".toList).length = 4 := by
    rw [length_levels_rest reading]
    decide +kernel
  have limited : ((⟨8, 0, some 4⟩ : Rendering).levels "r4".toList).length = 4 := by
    rw [Rendering.length_levels_limit (by decide) rfl, whole]
    rfl
  have warned : (v.output ⟨44100, none, none, some 0.5⟩ "r4").truncated = true := by
    simp only [output]
    rw [asked, limited]
    rfl
  refine ⟨_, _, admits, rate, result_of_admits admits, warned, ?_, fun truly => ?_⟩
  · rw [asked, limited, whole]
  · have shorter := (truly.mp warned).2
    rw [asked, limited, whole] at shorter
    exact Nat.lt_irrefl 4 shorter

end Invocation

end Command

end Chiptune
