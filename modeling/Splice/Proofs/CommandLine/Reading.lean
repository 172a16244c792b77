import Splice.CommandLine.Arguments
import Splice.Proofs.Outcomes

/-!
# Reading arguments

The arguments of a command are read one after the other: a plain argument, and options with their
values. An option takes the argument behind it only if the command takes that for a plain one.

* `CommandLine.readFrom` — what arguments give, in addition to what is given;
* `CommandLine.IsPlain` — an argument that a command takes for a plain one;
* `CommandLine.Setting`, `CommandLine.readFrom_settings_iff` — options that bind global variables;
  and
* `CommandLine.parse_command` — the command line as a whole.
-/

namespace Splice.CommandLine

/-- An option that binds global variables, as it is written. -/
structure Setting where
  /-- Does the value name a file of variables, instead of being one variable? -/
  isFile : Bool
  /-- The value. -/
  value : Text
  /-- Is the value attached to the name of the option with an equals sign? -/
  isAttached : Bool
deriving DecidableEq, Repr

namespace Setting

/-- The option. -/
def option (setting : Setting) : Opt :=
  if setting.isFile then { name := "--globals-file" } else { name := "--global" }

/-- The arguments in which it is written. -/
def args (setting : Setting) : List Text :=
  if setting.isAttached then [setting.option.name ++ '=' :: setting.value]
  else [setting.option.name, setting.value]

/-- What it gives. -/
def given (setting : Setting) : Text × Text := (setting.option.name, setting.value)

end Setting

variable {known : List Opt} {given left : Given} {arg value : Text} {args : List Text}
  {option : Opt} {ws : List Word}

/-! ### Words -/

/-- What arguments give, in addition to what is given. -/
def readFrom (known : List Opt) (given : Given) (args : List Text) : Except Stop Given := do
  readWords given (← words known args)

/-- The command takes the argument for a plain one. -/
def IsPlain (known : List Opt) (arg : Text) : Prop :=
  arg ≠ ['-', '-'] ∧ word known arg = .ok (.plain arg)

theorem words_cons (h : arg ≠ ['-', '-']) :
    words known (arg :: args) =
      (word known arg).bind fun w => (words known args).bind fun ws => .ok (w :: ws) := by
  rw [words, if_neg h]
  rfl

theorem knownWord_cases (known : List Opt) (name : Text) (attached : Option Text) :
    (∃ option, knownWord known name attached = .option option attached) ∨
      ∃ stop, knownWord known name attached = .help stop := by
  unfold knownWord
  split
  · exact .inl ⟨_, rfl⟩
  · exact .inr ⟨_, rfl⟩

theorem longWord_cases {w : Word} (h : longWord known arg = .ok w) :
    w = unknownWord arg ∨ (∃ option attached, w = .option option attached) ∨
      ∃ stop, w = .help stop := by
  have hknown (name : Text) (attached : Option Text) (heq : knownWord known name attached = w) :
      (∃ option attached, w = .option option attached) ∨ ∃ stop, w = .help stop := by
    subst heq
    exact (knownWord_cases known name attached).imp_left fun ⟨option, h⟩ => ⟨option, attached, h⟩
  unfold longWord at h
  split at h
  all_goals
    simp only at h
    split at h
    · exact .inr (hknown _ _ (Except.ok.inj h))
    · split at h
      · exact .inl (Except.ok.inj h).symm
      · exact .inr (hknown _ _ (Except.ok.inj h))
      · cases h

/-- The word for an argument is not the mark, and a plain word is the argument. -/
theorem word_cases {w : Word} (h : word known arg = .ok w) :
    w ≠ .mark ∧ ∀ text, w = .plain text → text = arg := by
  have hunknown : unknownWord arg ≠ .mark ∧ ∀ text, unknownWord arg = .plain text → text = arg := by
    unfold unknownWord
    split <;> simp_all
  unfold word at h
  split at h
  · rcases longWord_cases h with rfl | ⟨option, attached, rfl⟩ | ⟨stop, rfl⟩
    · exact hunknown
    · simp
    · simp
  · cases h
    simp
  · cases h
    simp
  · cases h
    exact hunknown
  · cases h
    simp

theorem words_head (h : words known args = .ok ws) :
    (args.head? ≠ some ['-', '-'] → ws.head? ≠ some .mark) ∧
      ∀ text, ws.head? = some (.plain text) → args.head? = some text ∧ IsPlain known text := by
  cases args with
  | nil =>
    cases h
    simp
  | cons arg args =>
    by_cases hmark : arg = ['-', '-']
    · rw [words, if_pos hmark] at h
      cases h
      simp [hmark]
    · rw [words_cons hmark] at h
      obtain ⟨w, hword, h⟩ := bind_eq_ok_iff.mp h
      obtain ⟨ws', -, h⟩ := bind_eq_ok_iff.mp h
      cases h
      obtain ⟨hnot, hplain⟩ := word_cases hword
      refine ⟨fun _ heq => hnot (Option.some.inj heq), fun text heq => ?_⟩
      have hw : w = .plain text := Option.some.inj heq
      have htext := hplain text hw
      subst htext
      rw [hw] at hword
      exact ⟨rfl, hmark, hword⟩

/-! ### Single arguments -/

theorem readFrom_cons (hmark : arg ≠ ['-', '-'])
    (h : readFrom known given (arg :: args) = .ok left) :
    ∃ w ws, word known arg = .ok w ∧ words known args = .ok ws ∧
      readWords given (w :: ws) = .ok left := by
  obtain ⟨all, hall, hread⟩ := bind_eq_ok_iff.mp h
  rw [words_cons hmark] at hall
  obtain ⟨w, hword, hall⟩ := bind_eq_ok_iff.mp hall
  obtain ⟨ws, hwords, hall⟩ := bind_eq_ok_iff.mp hall
  cases hall
  exact ⟨w, ws, hword, hwords, hread⟩

theorem readWords_plain (text : Text) (h : ws.head? ≠ some .mark) :
    readWords given (.plain text :: ws) = readWords (given.notePlain text) ws := by
  cases ws with
  | nil => rfl
  | cons w ws =>
    cases w with
    | mark => exact absurd rfl h
    | plain | help | option | unknown => rfl

theorem readWords_flag (h : option.takes = .nothing) :
    readWords given (.option option none :: ws) = readWords (given.note option []) ws := by
  cases ws with
  | nil => simp [readWords, h]
  | cons w ws => cases w <;> simp [readWords, h]

theorem readFrom_plain (h : IsPlain known arg) (hnext : args.head? ≠ some ['-', '-']) :
    readFrom known given (arg :: args) = readFrom known (given.notePlain arg) args := by
  unfold readFrom
  rw [words_cons h.1, h.2]
  cases hrest : words known args with
  | error stop => rfl
  | ok ws => exact readWords_plain arg ((words_head hrest).1 hnext)

/-- An option that takes a value takes the plain argument behind it. -/
theorem readFrom_option {name : Text} (hname : name ≠ ['-', '-'])
    (hword : word known name = .ok (.option option none)) (htakes : option.takes = .anyValue)
    (h : IsPlain known value) :
    readFrom known given (name :: value :: args) =
      readFrom known (given.note option value) args := by
  have hnote : given.noteValue option value = .ok (given.note option value) := by
    rw [Given.noteValue, htakes]
  have hsome : ¬ option.takes = .nothing := by simp [htakes]
  unfold readFrom
  rw [words_cons hname, hword, words_cons h.1, h.2]
  cases words known args with
  | error stop => rfl
  | ok ws =>
    show readWords given (.option option none :: .plain value :: ws) = _
    rw [readWords, if_neg hsome, hnote]
    rfl

/-- It takes nothing else. -/
theorem readFrom_option_ne {name : Text} (hname : name ≠ ['-', '-'])
    (hword : word known name = .ok (.option option none)) (htakes : option.takes = .anyValue)
    (h : ∀ value ∈ args.head?, ¬ IsPlain known value) :
    readFrom known given (name :: args) ≠ .ok left := by
  have hsome : ¬ option.takes = .nothing := by simp [htakes]
  intro hread
  obtain ⟨w, ws, hw, hws, hread⟩ := readFrom_cons hname hread
  cases hword.symm.trans hw
  cases ws with
  | nil => simp [readWords, hsome] at hread
  | cons w ws =>
    cases w with
    | plain value =>
      obtain ⟨hargs, hplain⟩ := (words_head hws).2 value rfl
      exact absurd hplain (h value hargs)
    | mark | help | option | unknown => simp [readWords, hsome] at hread

theorem readFrom_attached (harg : arg ≠ ['-', '-'])
    (hword : word known arg = .ok (.option option (some value)))
    (htakes : option.takes = .anyValue) :
    readFrom known given (arg :: args) = readFrom known (given.note option value) args := by
  have hnote : given.noteValue option value = .ok (given.note option value) := by
    rw [Given.noteValue, htakes]
  unfold readFrom
  rw [words_cons harg, hword]
  cases words known args with
  | error stop => rfl
  | ok ws =>
    show readWords given (.option option (some value) :: ws) = _
    rw [readWords, hnote]
    rfl

/-! ### Options for global variables -/

/-- The command can tell the value of the option from an option. -/
def Setting.IsRead (known : List Opt) (setting : Setting) : Prop :=
  setting.isAttached = false → IsPlain known setting.value

variable {setting : Setting} {settings : List Setting}

theorem cut?_append {sep : Char} {name : Text} (h : sep ∉ name) (text : Text) :
    Text.cut? sep (name ++ sep :: text) = some (name, text) := by
  induction name with
  | nil => simp [Text.cut?]
  | cons c name ih =>
    obtain ⟨hc, hname⟩ := List.ne_and_not_mem_of_not_mem_cons h
    rw [List.cons_append, Text.cut?, if_neg (Ne.symm hc), ih hname]
    rfl

/-- The commands know the options for global variables. -/
def KnowsSettings (known : List Opt) : Prop :=
  ∀ setting : Setting, word known setting.option.name = .ok (.option setting.option none) ∧
    ∀ value, word known (setting.option.name ++ '=' :: value) =
      .ok (.option setting.option (some value))

theorem longWord_attached {name : Text} (hname : '=' ∉ name)
    (h : (helpName :: known.map Opt.name).contains name = true) (value : Text) :
    longWord known (name ++ '=' :: value) = .ok (knownWord known name (some value)) := by
  unfold longWord
  rw [cut?_append hname]
  simp only
  rw [if_pos h]

theorem knowsSettings_of_names (h : ∀ setting : Setting,
      word known setting.option.name = .ok (.option setting.option none) ∧
      (helpName :: known.map Opt.name).contains setting.option.name = true ∧
      ∀ attached, knownWord known setting.option.name attached = .option setting.option attached) :
    KnowsSettings known := by
  intro setting
  obtain ⟨hword, hmem, hknown⟩ := h setting
  refine ⟨hword, fun value => ?_⟩
  have hname : '=' ∉ setting.option.name ∧ ∃ rest, setting.option.name = '-' :: '-' :: rest := by
    unfold Setting.option
    split
    · exact ⟨by decide, _, rfl⟩
    · exact ⟨by decide, _, rfl⟩
  obtain ⟨hequals, rest, hrest⟩ := hname
  have hlong := longWord_attached hequals hmem value
  rw [hknown] at hlong
  rw [← hlong, hrest]
  rfl

theorem knowsSettings_run : KnowsSettings runOptions := by
  refine knowsSettings_of_names fun ⟨isFile, value, isAttached⟩ => ?_
  cases isFile with
  | true => exact ⟨rfl, rfl, fun _ => rfl⟩
  | false => exact ⟨rfl, rfl, fun _ => rfl⟩

theorem knowsSettings_render : KnowsSettings renderOptions := by
  refine knowsSettings_of_names fun ⟨isFile, value, isAttached⟩ => ?_
  cases isFile with
  | true => exact ⟨rfl, rfl, fun _ => rfl⟩
  | false => exact ⟨rfl, rfl, fun _ => rfl⟩

theorem Setting.takes_option (setting : Setting) : setting.option.takes = .anyValue := by
  unfold Setting.option
  split <;> rfl

/-- The arguments of an option begin with its name, and are not the mark. -/
theorem Setting.args_cases (setting : Setting) :
    setting.option.name ≠ ['-', '-'] ∧
      ∀ text, setting.option.name ++ '=' :: text ≠ ['-', '-'] := by
  have hequals (name text : Text) : name ++ '=' :: text ≠ ['-', '-'] := by
    intro h
    have hmem : '=' ∈ name ++ '=' :: text := by simp
    rw [h] at hmem
    exact absurd hmem (by decide)
  unfold Setting.option
  refine ⟨?_, hequals _⟩
  split <;> decide

section

variable (hknown : KnowsSettings known)
include hknown

theorem readFrom_setting (h : setting.IsRead known) (args : List Text) :
    readFrom known given (setting.args ++ args) =
      readFrom known (given.note setting.option setting.value) args := by
  obtain ⟨hword, hattached⟩ := hknown setting
  obtain ⟨hname, hlong⟩ := setting.args_cases
  unfold Setting.args
  split
  · exact readFrom_attached (hlong _) (hattached setting.value) setting.takes_option
  · rename_i hseparate
    exact readFrom_option hname hword setting.takes_option (h (by simpa using hseparate))

theorem readFrom_setting_ne (h : ¬ setting.IsRead known) (args : List Text) :
    readFrom known given (setting.args ++ args) ≠ .ok left := by
  obtain ⟨hseparate, hplain⟩ : setting.isAttached = false ∧ ¬ IsPlain known setting.value := by
    simpa [Setting.IsRead] using h
  unfold Setting.args
  rw [if_neg (by simp [hseparate])]
  refine readFrom_option_ne setting.args_cases.1 (hknown setting).1 setting.takes_option ?_
  intro value hvalue
  cases hvalue
  exact hplain

/-- Options for global variables are read just if each of their values is. -/
theorem readFrom_settings_iff :
    readFrom known given (settings.flatMap Setting.args) = .ok left ↔
      (∀ setting ∈ settings, setting.IsRead known) ∧
        left = { given with options := given.options ++ settings.map Setting.given } := by
  induction settings generalizing given with
  | nil =>
    show Except.ok given = Except.ok left ↔ _
    simp [eq_comm]
  | cons setting settings ih =>
    rw [List.flatMap_cons]
    by_cases hread : setting.IsRead known
    · rw [readFrom_setting hknown hread, ih]
      simp [hread, Given.note, Setting.given]
    · constructor
      · intro h
        exact absurd h (readFrom_setting_ne hknown hread _)
      · intro ⟨hall, _⟩
        exact absurd (hall setting List.mem_cons_self) hread

end

theorem head?_settings (settings : List Setting) :
    (settings.flatMap Setting.args).head? ≠ some ['-', '-'] := by
  cases settings with
  | nil => simp
  | cons setting settings =>
    obtain ⟨hname, hlong⟩ := setting.args_cases
    rw [List.flatMap_cons, Setting.args]
    split
    · simpa using hlong setting.value
    · simpa using hname

/-- An argument for an option is not taken for a plain one. -/
theorem not_isPlain_head (hknown : KnowsSettings known) (settings : List Setting) :
    ∀ value ∈ (settings.flatMap Setting.args).head?, ¬ IsPlain known value := by
  cases settings with
  | nil => simp
  | cons setting settings =>
    obtain ⟨hword, hattached⟩ := hknown setting
    intro value hvalue hplain
    rw [List.flatMap_cons, Setting.args] at hvalue
    split at hvalue
    · cases hvalue
      cases (hattached setting.value).symm.trans hplain.2
    · cases hvalue
      cases hword.symm.trans hplain.2

/-! ### The arguments of commands -/

theorem readArguments_eq (known : List Opt) (args : List Text) :
    readArguments known args = (readFrom known {} args).bind fun given =>
      match given.plain with
      | none => .error .refused
      | some text => if given.hasExtra then .error .refused else .ok (text, given) := by
  unfold readArguments readFrom
  cases words known args <;> rfl

theorem Given.plain_noteValue {next : Given} (h : given.noteValue option value = .ok next) :
    next.plain = given.plain := by
  unfold noteValue at h
  split at h
  · cases h
  · cases h
    rfl
  · split at h
    · cases h
      rfl
    · cases h

/-- A word that is no plain argument leaves nothing plain. What is read on are the words behind it,
unless the next one is a plain argument, which may be its value. -/
theorem readWords_cons_cases {w : Word} (h : readWords given (w :: ws) = .ok left)
    (hmark : w ≠ .mark) (hplain : ∀ text, w ≠ .plain text) :
    (∃ next, next.plain = given.plain ∧ readWords next ws = .ok left) ∨
      ∃ value ws', ws = .plain value :: ws' := by
  cases w with
  | mark => exact absurd rfl hmark
  | plain text => exact absurd rfl (hplain text)
  | help stop => cases h
  | unknown => exact .inl ⟨given.noteExtra, rfl, h⟩
  | option option attached =>
    cases attached with
    | some value =>
      rw [readWords] at h
      split at h
      · rename_i next hnext
        exact .inl ⟨next, Given.plain_noteValue hnext, h⟩
      · cases h
    | none =>
      by_cases htakes : option.takes = .nothing
      · rw [readWords_flag htakes] at h
        exact .inl ⟨given.note option [], rfl, h⟩
      · cases ws with
        | nil => simp [readWords, htakes] at h
        | cons w ws =>
          cases w with
          | plain value => exact .inr ⟨value, ws, rfl⟩
          | mark | help | option | unknown => simp [readWords, htakes] at h

/-- An argument that is not taken for a plain one leaves nothing plain, if only options for global
variables follow. -/
theorem plain_of_not_isPlain (hknown : KnowsSettings known) (hmark : arg ≠ ['-', '-'])
    (harg : ¬ IsPlain known arg) (hgiven : given.plain = none)
    (h : readFrom known given (arg :: settings.flatMap Setting.args) = .ok left) :
    left.plain = none := by
  obtain ⟨w, ws, hword, hwords, hread⟩ := readFrom_cons hmark h
  obtain ⟨hw, htext⟩ := word_cases hword
  have hplain : ∀ text, w ≠ .plain text := by
    rintro text rfl
    rw [htext text rfl] at hword
    exact harg ⟨hmark, hword⟩
  rcases readWords_cons_cases hread hw hplain with ⟨next, hnext, hread⟩ | ⟨value, ws', rfl⟩
  · have hsettings : readFrom known next (settings.flatMap Setting.args) = .ok left := by
      rw [readFrom, hwords]
      exact hread
    rw [((readFrom_settings_iff hknown).mp hsettings).2]
    exact hnext.trans hgiven
  · -- What follows is an option, which is no value.
    obtain ⟨hhead, hvalue⟩ := (words_head hwords).2 value rfl
    exact absurd hvalue (not_isPlain_head hknown settings value hhead)

/-- A command succeeds with its one plain argument if its arguments can be read. -/
theorem readArguments_iff {P : Prop} {text : Text} {result : Text × Given}
    (hread : ∀ left, readFrom known {} args = .ok left ↔ P ∧ left = given)
    (hplain : given.plain = some text) (hextra : given.hasExtra = false) :
    readArguments known args = .ok result ↔ P ∧ result = (text, given) := by
  rw [readArguments_eq]
  exact bind_eq_ok_iff_of hread (by simp [hplain, hextra]) result

/-- What the arguments of the command give that processes a configuration. -/
theorem readArguments_run_iff {path : Text} {result : Text × Given} (hmark : path ≠ ['-', '-']) :
    readArguments runOptions (path :: settings.flatMap Setting.args) = .ok result ↔
      IsPlain runOptions path ∧ (∀ setting ∈ settings, setting.IsRead runOptions) ∧
        result = (path, { plain := some path, options := settings.map Setting.given }) := by
  have hknown := knowsSettings_run
  by_cases hpath : IsPlain runOptions path
  · have hread (left : Given) :
        readFrom runOptions {} (path :: settings.flatMap Setting.args) = .ok left ↔
          (∀ setting ∈ settings, setting.IsRead runOptions) ∧
            left = { plain := some path, options := settings.map Setting.given } := by
      rw [readFrom_plain hpath (head?_settings settings), readFrom_settings_iff hknown]
      rfl
    rw [readArguments_iff hread rfl rfl, and_iff_right hpath]
  · refine iff_of_false (fun h => ?_) fun h => hpath h.1
    rw [readArguments_eq] at h
    obtain ⟨given, hread, h⟩ := bind_eq_ok_iff.mp h
    simp [plain_of_not_isPlain hknown hmark hpath rfl hread] at h

/-- What the arguments of the command give that renders a file. -/
theorem readArguments_render_iff {file path out : Text} {result : Text × Given}
    (hfile : IsPlain renderOptions file) (hout : IsPlain renderOptions out) :
    readArguments renderOptions
        (file :: "--config" :: path :: "--out" :: out :: settings.flatMap Setting.args) =
          .ok result ↔
      IsPlain renderOptions path ∧ (∀ setting ∈ settings, setting.IsRead renderOptions) ∧
        result = (file, { plain := some file, options :=
          ("--config", path) :: ("--out", out) :: settings.map Setting.given }) := by
  have hknown := knowsSettings_render
  have hconfig : word renderOptions "--config" = .ok (.option { name := "--config" } none) := rfl
  have houtput : word renderOptions "--out" = .ok (.option { name := "--out" } none) := rfl
  by_cases hpath : IsPlain renderOptions path
  · have hread (left : Given) : readFrom renderOptions {}
          (file :: "--config" :: path :: "--out" :: out :: settings.flatMap Setting.args) =
            .ok left ↔
        (∀ setting ∈ settings, setting.IsRead renderOptions) ∧
          left = { plain := some file, options :=
            ("--config", path) :: ("--out", out) :: settings.map Setting.given } := by
      rw [readFrom_plain hfile (by simp), readFrom_option (by decide) hconfig rfl hpath,
        readFrom_option (by decide) houtput rfl hout, readFrom_settings_iff hknown]
      rfl
    rw [readArguments_iff hread rfl rfl, and_iff_right hpath]
  · -- Behind an option that takes a value, only a plain word is read.
    refine iff_of_false (fun h => ?_) fun h => hpath h.1
    rw [readArguments_eq, readFrom_plain hfile (by simp)] at h
    obtain ⟨given, hread, -⟩ := bind_eq_ok_iff.mp h
    refine readFrom_option_ne (by decide) hconfig rfl ?_ hread
    intro value hvalue
    cases hvalue
    exact hpath

/-! ### Command lines -/

/-- Where no options are known, every argument has a word. -/
theorem exists_word_nil (arg : Text) : ∃ w, word [] arg = .ok w := by
  have hlong (arg : Text) : ∃ w, longWord [] arg = .ok w := by
    unfold longWord
    simp only [List.map_nil]
    split
    · rename_i name value _
      split
      · exact ⟨_, rfl⟩
      · cases hlead : Text.hasLead name helpName <;> simp [hlead]
    · split
      · exact ⟨_, rfl⟩
      · cases hlead : Text.hasLead arg helpName <;> simp [hlead]
  unfold word
  split
  · exact hlong _
  all_goals exact ⟨_, rfl⟩

theorem exists_words_nil (args : List Text) :
    ∃ ws, words [] args = .ok ws ∧ ws.length = args.length := by
  induction args with
  | nil => exact ⟨[], rfl, rfl⟩
  | cons arg args ih =>
    by_cases hmark : arg = ['-', '-']
    · exact ⟨.mark :: args.map .plain, by rw [words, if_pos hmark], by simp⟩
    · obtain ⟨w, hword⟩ := exists_word_nil arg
      obtain ⟨ws, hwords, hlength⟩ := ih
      exact ⟨w :: ws, by rw [words_cons hmark, hword, hwords]; rfl, by simp [hlength]⟩

/-- Behind the name of a command stand its arguments. -/
theorem parse_command {name : Text} (hname : IsPlain [] name) (args : List Text) :
    parse (name :: args) = (readCommand name args).map some := by
  obtain ⟨ws, hwords, hlength⟩ := exists_words_nil args
  have hall : words [] (name :: args) = .ok (.plain name :: ws) := by
    rw [words_cons hname.1, hname.2, hwords]
    rfl
  have hargs : (ws.zip args).map Prod.snd = args := List.map_snd_zip (Nat.le_of_eq hlength.symm)
  rw [parse, hall]
  show findCommand false ((.plain name, name) :: ws.zip args) = _
  rw [findCommand, hargs]
  cases readCommand name args <;> rfl

theorem values_cons (plain : Option Text) (key value name : Text) (options : List (Text × Text)) :
    Given.values { plain, options := (key, value) :: options } name =
      if key = name then value :: Given.values { plain, options } name
      else Given.values { plain, options } name := by
  unfold Given.values
  by_cases h : key = name
  · simp [h]
  · simp [h]

/-- Options for global variables give nothing under other names. -/
theorem values_settings {name : Text} (h : name ≠ "--global") (h' : name ≠ "--globals-file")
    (plain : Option Text) (settings : List Setting) :
    Given.values { plain, options := settings.map Setting.given } name = [] := by
  unfold Given.values
  rw [List.filterMap_eq_nil_iff]
  intro pair hpair
  obtain ⟨setting, -, rfl⟩ := List.mem_map.mp hpair
  have hname : setting.option.name ≠ name := by
    unfold Setting.option
    split
    · exact Ne.symm h'
    · exact Ne.symm h
  exact if_neg hname

theorem threshold_eq_info (hdebug : given.values "--debug" = [])
    (hquiet : given.values "--quiet" = []) (hverbose : given.values "--verbose" = [])
    (hlevel : given.values "--log-level" = []) :
    given.threshold = .info := by
  unfold Given.threshold Given.has Given.value?
  rw [hdebug, hquiet, hverbose, hlevel]
  rfl

/-- The sources of global variables that options give. -/
def globalsOf (settings : List Setting) : GlobalsSource :=
  Given.globals { options := settings.map Setting.given }

/-- The invocation of the command that processes a configuration, with options for global
variables. -/
theorem invocation_run (path : Text) (settings : List Setting) :
    let given : Given := { plain := some path, options := settings.map Setting.given }
    (⟨.run path (given.has "--dry-run"), given.globals, given.threshold⟩ : Invocation) =
      { command := .run path false, globals := globalsOf settings } := by
  intro given
  have hvalues {name : Text} (h : name ≠ "--global") (h' : name ≠ "--globals-file") :
      given.values name = [] := values_settings h h' _ settings
  have hdry := hvalues (by decide : ("--dry-run" : Text) ≠ "--global") (by decide)
  have hthreshold : given.threshold = .info :=
    threshold_eq_info (hvalues (by decide) (by decide)) (hvalues (by decide) (by decide))
      (hvalues (by decide) (by decide)) (hvalues (by decide) (by decide))
  rw [Given.has, hdry, hthreshold]
  rfl

/-- The command that processes a configuration is called with a path that it takes for a plain
argument and with values that it can tell from options. -/
theorem parse_run_iff {path : Text} {invocation : Option Invocation} (hmark : path ≠ ['-', '-']) :
    parse ("run" :: path :: settings.flatMap Setting.args) = .ok invocation ↔
      IsPlain runOptions path ∧ (∀ setting ∈ settings, setting.IsRead runOptions) ∧
        invocation = some { command := .run path false, globals := globalsOf settings } := by
  have hread (result : Text × Given) :
      readArguments runOptions (path :: settings.flatMap Setting.args) = .ok result ↔
        (IsPlain runOptions path ∧ ∀ setting ∈ settings, setting.IsRead runOptions) ∧
          result = (path, { plain := some path, options := settings.map Setting.given }) := by
    rw [and_assoc]
    exact readArguments_run_iff hmark
  rw [parse_command ⟨by decide, rfl⟩, readCommand, if_pos rfl, ← and_assoc, ← invocation_run path]
  refine map_eq_ok_iff_of (fun made => ?_) some invocation
  exact bind_eq_ok_iff_of hread (by rfl) made

section

variable (file : Text) {path out : Text} (settings : List Setting)

/-- What the arguments of the command give that renders a file. -/
def givenToRender (file path out : Text) (settings : List Setting) : Given where
  plain := some file
  options := ("--config", path) :: ("--out", out) :: settings.map Setting.given

theorem values_givenToRender {name : Text} (h : name ≠ "--config") (h' : name ≠ "--out") :
    (givenToRender file path out settings).values name =
      Given.values { plain := some file, options := settings.map Setting.given } name := by
  rw [givenToRender, values_cons, if_neg (Ne.symm h), values_cons, if_neg (Ne.symm h')]

/-- Other options are not given. -/
theorem values_givenToRender_eq_nil {name : Text}
    (h : name ∉ (["--config", "--out", "--global", "--globals-file"] : List Text)) :
    (givenToRender file path out settings).values name = [] := by
  simp only [List.mem_cons, List.not_mem_nil, or_false, not_or] at h
  rw [values_givenToRender file settings h.1 h.2.1]
  exact values_settings h.2.2.1 h.2.2.2 _ settings

theorem out_givenToRender (hne : out ≠ []) :
    (givenToRender file path out settings).path? "--out" = some out := by
  rw [givenToRender, Given.path?, Given.value?, values_cons, if_neg (by decide),
    values_cons, if_pos rfl, values_settings (by decide) (by decide)]
  simp [hne]

theorem config_givenToRender (hne : path ≠ []) :
    (givenToRender file path out settings).path? "--config" = some path := by
  rw [givenToRender, Given.path?, Given.value?, values_cons, if_pos rfl, values_cons,
    if_neg (by decide), values_settings (by decide) (by decide)]
  simp [hne]

/-- The invocation of the command that renders a file with a configuration, with options for global
variables. -/
theorem invocation_render (hout : out ≠ []) (hpath : path ≠ []) :
    let given := givenToRender file path out settings
    (⟨.render file given.render, given.globals, given.threshold⟩ : Invocation) =
      { command := .render file { out := some out, config := some path }
        globals := globalsOf settings } := by
  intro given
  have hvalues {name : Text} (h : name ≠ "--config") (h' : name ≠ "--out") :
      given.values name = Given.values { plain := some file, options := settings.map Setting.given }
        name :=
    values_givenToRender file settings h h'
  have hnone {name : Text}
    (h : name ∉ (["--config", "--out", "--global", "--globals-file"] : List Text)) :
      given.values name = [] := values_givenToRender_eq_nil file settings h
  have hthreshold : given.threshold = .info :=
    threshold_eq_info (hnone (by decide)) (hnone (by decide)) (hnone (by decide))
      (hnone (by decide))
  have hglobals : given.globals = globalsOf settings := by
    unfold Given.globals Given.path? Given.value?
    rw [hvalues (by decide) (by decide), hvalues (by decide) (by decide)]
    rfl
  have hrender : given.render = { out := some out, config := some path } := by
    unfold Given.render
    rw [out_givenToRender file settings hout, config_givenToRender file settings hpath]
    unfold Given.value? Given.has
    rw [hnone (by decide), hnone (by decide), hnone (by decide), hnone (by decide),
      hnone (by decide), hnone (by decide), hnone (by decide)]
    rfl
  rw [hthreshold, hglobals, hrender]

end

/-- The command that renders a file with a configuration is called with a path that it takes for a
plain argument and with values that it can tell from options. -/
theorem parse_render_iff {file path out : Text} {invocation : Option Invocation}
    (hfile : IsPlain renderOptions file) (hout : IsPlain renderOptions out) (hne : out ≠ [])
    (hpath : path ≠ []) :
    parse ("render" :: file :: "--config" :: path :: "--out" :: out ::
        settings.flatMap Setting.args) = .ok invocation ↔
      IsPlain renderOptions path ∧ (∀ setting ∈ settings, setting.IsRead renderOptions) ∧
        invocation = some { command := .render file { out := some out, config := some path }
                            globals := globalsOf settings } := by
  have hread (result : Text × Given) : readArguments renderOptions
        (file :: "--config" :: path :: "--out" :: out :: settings.flatMap Setting.args) =
          .ok result ↔
      (IsPlain renderOptions path ∧ ∀ setting ∈ settings, setting.IsRead renderOptions) ∧
        result = (file, givenToRender file path out settings) := by
    rw [and_assoc]
    exact readArguments_render_iff hfile hout
  rw [parse_command ⟨by decide, rfl⟩, readCommand, if_neg (by decide), if_pos rfl, ← and_assoc,
    ← invocation_render file settings hne hpath]
  refine map_eq_ok_iff_of (fun made => ?_) some invocation
  exact bind_eq_ok_iff_of hread (by rfl) made

end Splice.CommandLine
