import ProcessMonitor.Model.Vts.VtsConfig

/-! # Configuration files of the schema

A file is a list of lines. A line of an element has its tags around the value, and the text around them holds no
`<`, so that the two tags are the only places where a search for a tag can stop; the search for any other
opening tag fails at both. Every line then sets the field of its element and no other one.
-/

namespace ProcessMonitor.Soundness.ConfigFile

open Machine Machine.Posix Model.Vts

/-! ## Documents -/

/-- The elements of `vts_config.xsd`. -/
inductive Tag
  | bindAddr
  | port
  | acceptBacklog
  | ioTimeoutMs
  | clientPoolSize
  | retryMax
  | retryBackoffMs
  | dedupTtlMs
  | logPath
deriving DecidableEq, Repr

def Tag.name : Tag → Bytes
  | .bindAddr => literal "bind_addr"
  | .port => literal "port"
  | .acceptBacklog => literal "accept_backlog"
  | .ioTimeoutMs => literal "io_timeout_ms"
  | .clientPoolSize => literal "client_pool_size"
  | .retryMax => literal "retry_max"
  | .retryBackoffMs => literal "retry_backoff_ms"
  | .dedupTtlMs => literal "dedup_ttl_ms"
  | .logPath => literal "log_path"

inductive Value
  | text (t : Bytes)
  | number (z : ℤ)
deriving DecidableEq, Repr

/-- Text of a line without the beginning of a tag. -/
def Plain (t : Bytes) : Prop := 0 ∉ t ∧ 10 ∉ t ∧ 60 ∉ t

/-- The types of the elements; a text has a buffer of a given size. -/
inductive Kind
  | text (size : ℕ)
  | unsignedShort
  | int

def Tag.kind : Tag → Kind
  | .bindAddr => .text 64
  | .logPath => .text 256
  | .port => .unsignedShort
  | _ => .int

/-- The texts that stand for a value in the file: a text for itself, any decimal numeral of up to 63 digits for an
`unsignedShort`, and the canonical numeral for an `int`. -/
def Kind.Writes : Kind → Value → Bytes → Prop
  | .text size, .text t, written => written = t ∧ t.length < size ∧ Plain t
  | .unsignedShort, .number z, written =>
    written ≠ [] ∧ (∀ c ∈ written, Numeral.isdigit c = true) ∧ written.length ≤ 63 ∧ Numeral.value written = z ∧
      z ≤ 65535
  | .int, .number z, written => written = Numeral.signed z ∧ -2 ^ 31 ≤ z ∧ z < 2 ^ 31
  | _, _, _ => False

/-- An element with what stands around it on its line. -/
structure Setting where
  before : Bytes
  tag : Tag
  value : Value
  written : Bytes
  behind : Bytes
  writes : tag.kind.Writes value written
  beforePlain : Plain before
  behindPlain : Plain behind

def Setting.text (s : Setting) : Bytes :=
  s.before ++ (openTag s.tag.name ++ (s.written ++ (closeTag s.tag.name ++ s.behind)))

inductive Line
  | setting (s : Setting)
  | other (text : Bytes) (free : 10 ∉ text) (without : ∀ tag : Tag, ¬ openTag tag.name <:+: text)

namespace Line

def text : Line → Bytes
  | setting s => s.text
  | other text _ _ => text

def settings : Line → List Setting
  | setting s => [s]
  | other _ _ _ => []

end Line

/-- Lines with their newlines, and perhaps a last one without. -/
def fileText (lines : List Line) (last : Option Line) : Bytes :=
  lines.flatMap (fun line => line.text ++ [10]) ++ last.toList.flatMap Line.text

/-- A file whose lines fit the buffer of the reader. -/
structure Document where
  lines : List Line
  last : Option Line
  short : ∀ line ∈ lines, line.text.length + 1 ≤ 511
  lastShort : ∀ line ∈ last, line.text.length ≤ 511

namespace Document

def text (d : Document) : Bytes := fileText d.lines d.last

def settings (d : Document) : List Setting := (d.lines ++ d.last.toList).flatMap Line.settings

end Document

/-- The field of an element. -/
def field (c : VtsConfig) : Tag → Value
  | .bindAddr => .text c.bindAddr
  | .port => .number c.port
  | .acceptBacklog => .number c.acceptBacklog
  | .ioTimeoutMs => .number c.ioTimeoutMs
  | .clientPoolSize => .number c.clientPoolSize
  | .retryMax => .number c.retryMax
  | .retryBackoffMs => .number c.retryBackoffMs
  | .dedupTtlMs => .number c.dedupTtlMs
  | .logPath => .text c.logPath

/-- The last value that is given for an element. -/
def lastValue (tag : Tag) : List Setting → Option Value
  | [] => none
  | s :: settings => (lastValue tag settings).or (if s.tag = tag then some s.value else none)

/-! ## Names and values -/

theorem Tag.name_short (tag : Tag) : tag.name.length ≤ 60 := by cases tag <;> decide

theorem Tag.name_free (tag : Tag) :
    0 ∉ tag.name ∧ 10 ∉ tag.name ∧ 47 ∉ tag.name ∧ 60 ∉ tag.name ∧ 62 ∉ tag.name := by
  cases tag <;> decide

theorem Tag.name_injective {a b : Tag} (same : a.name = b.name) : a = b := by
  cases a <;> cases b <;> first | rfl | exact absurd same (by decide)

/-- Digits and signs begin no tag and end no line. -/
theorem plain_of_digits {written : Bytes} (digits : ∀ c ∈ written, c = 45 ∨ Numeral.isdigit c = true) :
    Plain written := by
  have absent {c : UInt8} (other : ¬(c = 45 ∨ Numeral.isdigit c = true)) : c ∉ written :=
    fun member => other (digits c member)
  exact ⟨absent (by decide), absent (by decide), absent (by decide)⟩

theorem plain_signed (z : ℤ) : Plain (Numeral.signed z) := by
  apply plain_of_digits
  intro c member
  rw [Numeral.signed] at member
  split at member
  · exact (List.mem_cons.mp member).imp_right Numeral.isdigit_of_mem_decimal
  · exact .inr (Numeral.isdigit_of_mem_decimal member)

/-- The numeral of an `int` fits the buffer. -/
theorem signed_length {z : ℤ} (low : -2 ^ 31 ≤ z) (high : z < 2 ^ 31) : (Numeral.signed z).length < 64 := by
  have digits (n : ℕ) (small : n ≤ 2 ^ 31) : (decimal n).length ≤ 10 := decimal_length_le (by decide) (by omega)
  rw [Numeral.signed]
  split
  · have := digits z.natAbs (by omega)
    rw [List.length_cons]
    omega
  · have := digits z.toNat (by omega)
    omega

/-- What a text of each kind is read as. -/
inductive Kind.Reads : Kind → Value → Bytes → Prop
  | text {size : ℕ} {t : Bytes} (fits : t.length < size) : Reads (.text size) (.text t) t
  | unsignedShort {z : ℤ} {written : Bytes} (fits : written.length < 64) (read : atoi written = z) (low : 0 ≤ z)
      (high : z ≤ 65535) : Reads .unsignedShort (.number z) written
  | int {z : ℤ} {written : Bytes} (fits : written.length < 64) (read : atoi written = z) :
      Reads .int (.number z) written

theorem Kind.Writes.reads {kind : Kind} {value : Value} {written : Bytes} (writes : kind.Writes value written) :
    kind.Reads value written ∧ Plain written := by
  cases kind with
  | text size =>
    cases value with
    | number z => exact writes.elim
    | text t =>
      obtain ⟨rfl, fits, plain⟩ := writes
      exact ⟨.text fits, plain⟩
  | unsignedShort =>
    cases value with
    | text t => exact writes.elim
    | number z =>
      obtain ⟨nonempty, digits, short, rfl, high⟩ := writes
      refine ⟨.unsignedShort (by omega) (Numeral.atoi_digits nonempty digits (by omega)) (by omega) high, ?_⟩
      exact plain_of_digits fun c member => .inr (digits c member)
  | int =>
    cases value with
    | text t => exact writes.elim
    | number z =>
      obtain ⟨rfl, low, high⟩ := writes
      exact ⟨.int (signed_length low high) (Numeral.atoi_signed low high), plain_signed z⟩

theorem Setting.written_plain (s : Setting) : Plain s.written := s.writes.reads.2

/-! ## One line -/

section Search

variable {name : Bytes}

theorem openTag_eq (name : Bytes) : openTag name = 60 :: (name ++ [62]) := rfl

theorem closeTag_eq (name : Bytes) : closeTag name = 60 :: 47 :: (name ++ [62]) := rfl

/-- The buffers of the two tags are long enough. -/
theorem snprintf_tags (short : name.length ≤ 60) :
    (snprintf 64 (openTag name)).1 = openTag name ∧ (snprintf 64 (closeTag name)).1 = closeTag name := by
  constructor
  · apply List.take_of_length_le
    rw [openTag_eq, List.length_cons, List.length_append, List.length_singleton]
    omega
  · apply List.take_of_length_le
    rw [closeTag_eq, List.length_cons, List.length_cons, List.length_append, List.length_singleton]
    omega

variable {before value behind : Bytes} (beforeFree : 60 ∉ before) (valueFree : 60 ∉ value)
include beforeFree valueFree

/-- The value between the two tags. -/
theorem parseText_own (short : name.length ≤ 60) {dstsz : ℕ} (room : value.length < dstsz) :
    parseText (before ++ (openTag name ++ (value ++ (closeTag name ++ behind)))) name dstsz = some value := by
  obtain ⟨opening, closing⟩ := snprintf_tags short
  have found : strstr (before ++ (openTag name ++ (value ++ (closeTag name ++ behind)))) (openTag name) =
      some (openTag name ++ (value ++ (closeTag name ++ behind))) :=
    (strstr_skip beforeFree).trans (strstr_of_starts (List.prefix_append _ _))
  have ends : strstr (value ++ (closeTag name ++ behind)) (closeTag name) = some (closeTag name ++ behind) :=
    (strstr_skip valueFree).trans (strstr_of_starts (List.prefix_append _ _))
  have count : (value ++ (closeTag name ++ behind)).length - (closeTag name ++ behind).length = value.length := by
    rw [List.length_append]
    omega
  simp only [parseText, opening, closing, found, Option.bind_eq_bind, Option.bind_some, List.drop_left, ends, count]
  rw [if_neg (by omega), List.take_left]

/-- No other opening tag is on the line: one would have to start at one of the two tags. -/
theorem strstr_foreign {other : Bytes} (behindFree : 60 ∉ behind) (nameFree : 60 ∉ name) (nameEnds : 62 ∉ name)
    (otherEnds : 62 ∉ other) (otherOpens : 47 ∉ other) (different : other ≠ name) :
    strstr (before ++ (openTag name ++ (value ++ (closeTag name ++ behind)))) (openTag other) = none := by
  have atOpening : ¬ other ++ [62] <+: name ++ 62 :: (value ++ (closeTag name ++ behind)) := by
    rw [prefix_delimited [] otherEnds nameEnds]
    exact fun here => different here.1
  have atClosing : ¬ other ++ [62] <+: 47 :: (name ++ 62 :: behind) := by
    intro here
    cases other with
    | nil => exact absurd (List.cons_prefix_cons.mp here).1 (by decide)
    | cons c other =>
      obtain ⟨rfl, -⟩ := List.cons_prefix_cons.mp here
      exact otherOpens List.mem_cons_self
  have betweenFree : 60 ∉ name ++ 62 :: value := by
    rw [List.mem_append, List.mem_cons]
    rintro (inName | same | inValue)
    · exact nameFree inName
    · exact absurd same (by decide)
    · exact valueFree inValue
  have restFree : 60 ∉ 47 :: (name ++ 62 :: behind) := by
    rw [List.mem_cons, List.mem_append, List.mem_cons]
    rintro (same | inName | same | inBehind)
    · exact absurd same (by decide)
    · exact nameFree inName
    · exact absurd same (by decide)
    · exact behindFree inBehind
  have line : before ++ (openTag name ++ (value ++ (closeTag name ++ behind))) =
      before ++ 60 :: (name ++ 62 :: (value ++ (closeTag name ++ behind))) := by
    simp [openTag_eq]
  have between : name ++ 62 :: (value ++ (closeTag name ++ behind)) =
      (name ++ 62 :: value) ++ 60 :: 47 :: (name ++ 62 :: behind) := by
    simp [closeTag_eq]
  rw [line, openTag_eq, strstr_skip beforeFree, strstr_delimiter, if_neg atOpening, between, strstr_skip betweenFree,
    strstr_delimiter, if_neg atClosing]
  exact strstr_of_not_mem List.mem_cons_self restFree

end Search

/-- What a line says of an element. -/
def parsed (line : Bytes) (tag : Tag) : Option Value :=
  match tag.kind with
  | .text size => (parseText line tag.name size).map .text
  | .unsignedShort => (parseU16 line tag.name).map fun n : ℕ => Value.number n
  | .int => (parseInt line tag.name).map .number

theorem field_parseLine (c : VtsConfig) (line : Bytes) (tag : Tag) :
    field (parseLine c line) tag = (parsed line tag).getD (field c tag) := by
  cases tag with
  | port => exact (Option.getD_map (fun n : ℕ => Value.number n) c.port _).symm
  | _ => exact (Option.getD_map _ _ _).symm

theorem parsed_of_missing {line : Bytes} {tag : Tag} (missing : strstr line (openTag tag.name) = none) :
    parsed line tag = none := by
  have nothing (dstsz : ℕ) : parseText line tag.name dstsz = none := by
    obtain ⟨opening, -⟩ := snprintf_tags tag.name_short
    simp only [parseText, opening, missing, Option.bind_eq_bind, Option.bind_none]
  cases kind : tag.kind <;> simp only [parsed, kind, parseInt, parseU16, nothing, Option.map_none]

/-- The end of a line as `fgets` leaves it. -/
def Ending (ending : Bytes) : Prop := ending = [10] ∨ ending = []

theorem Ending.free {ending : Bytes} (ends : Ending ending) {c : UInt8} (other : c ≠ 10) : c ∉ ending := by
  rcases ends with rfl | rfl
  · exact fun member => other (List.mem_singleton.mp member)
  · exact List.not_mem_nil

namespace Setting

variable (s : Setting) {ending : Bytes}

theorem text_append (ending : Bytes) : s.text ++ ending =
    s.before ++ (openTag s.tag.name ++ (s.written ++ (closeTag s.tag.name ++ (s.behind ++ ending)))) := by
  simp only [text, List.append_assoc]

/-- A byte that no tag is made of is not on the line if it is in none of its parts. -/
theorem not_mem_text {c : UInt8} (foreign : c ≠ 47 ∧ c ≠ 60 ∧ c ≠ 62) (before : c ∉ s.before)
    (name : c ∉ s.tag.name) (value : c ∉ s.written) (behind : c ∉ s.behind) : c ∉ s.text := by
  simp only [text, openTag_eq, closeTag_eq, List.mem_append, List.mem_cons, List.not_mem_nil, foreign, before, name,
    value, behind, or_self, not_false_eq_true]

variable (ends : Ending ending)
include ends

theorem cstr_text : cstr (s.text ++ ending) = s.text ++ ending := by
  apply cstr_of_nul_free
  rw [List.mem_append, not_or]
  refine ⟨s.not_mem_text (by decide) s.beforePlain.1 s.tag.name_free.1 s.written_plain.1 s.behindPlain.1, ?_⟩
  exact ends.free (by decide)

/-- Each element of the schema finds its own value on the line, and no other one. -/
theorem parsed_line (tag : Tag) :
    parsed (cstr (s.text ++ ending)) tag = if s.tag = tag then some s.value else none := by
  rw [s.cstr_text ends, s.text_append]
  split
  next same =>
    subst same
    have own {dstsz : ℕ} (room : s.written.length < dstsz) :
        parseText (s.before ++ (openTag s.tag.name ++ (s.written ++ (closeTag s.tag.name ++
          (s.behind ++ ending))))) s.tag.name dstsz = some s.written :=
      parseText_own s.beforePlain.2.2 s.written_plain.2.2 s.tag.name_short room
    have reads := s.writes.reads.1
    rw [parsed]
    generalize s.value = value, s.written = written, s.tag.kind = kind at own reads
    cases reads with
    | text fits =>
      simp only [own fits, Option.map_some]
    | unsignedShort fits read low high =>
      have kept {z : ℤ} (low : 0 ≤ z) (high : z ≤ 65535) : ((z % 2 ^ 16).toNat : ℤ) = z := by omega
      simp only [parseU16, own fits, Option.map_some, read, kept low high]
    | int fits read =>
      simp only [parseInt, own fits, Option.map_some, read]
  next different =>
    obtain ⟨-, -, -, nameFree, nameEnds⟩ := s.tag.name_free
    obtain ⟨-, -, otherOpens, -, otherEnds⟩ := tag.name_free
    have behindFree : 60 ∉ s.behind ++ ending := by
      rw [List.mem_append, not_or]
      exact ⟨s.behindPlain.2.2, ends.free (by decide)⟩
    apply parsed_of_missing
    exact strstr_foreign s.beforePlain.2.2 s.written_plain.2.2 behindFree nameFree nameEnds otherEnds otherOpens
      fun same => different (Tag.name_injective same.symm)

end Setting

/-- A line without an opening tag sets nothing. -/
theorem parsed_other {text ending : Bytes} (without : ∀ tag : Tag, ¬ openTag tag.name <:+: text)
    (ends : Ending ending) (tag : Tag) : parsed (cstr (text ++ ending)) tag = none := by
  have inText : strstr text (openTag tag.name) = none := by
    cases result : strstr text (openTag tag.name) with
    | none => rfl
    | some found =>
      obtain ⟨starts, suffix⟩ := strstr_some result
      exact absurd (starts.isInfix.trans suffix.isInfix) (without tag)
  have missing : strstr (text ++ ending) (openTag tag.name) = none := by
    rcases ends with rfl | rfl
    · have foreign : 10 ∉ openTag tag.name := by cases tag <;> decide
      exact strstr_append_cons (List.cons_ne_nil _ _) foreign inText []
    · rwa [List.append_nil]
  apply parsed_of_missing
  exact strstr_of_longer (List.takeWhile_prefix _) missing

/-! ## The whole file -/

/-- The settings take effect on one configuration, in their order, and give the other. -/
structure Reflects (settings : List Setting) (c after : VtsConfig) : Prop where
  fields : ∀ tag, field after tag = (lastValue tag settings).getD (field c tag)
  udpPort : after.udpPort = c.udpPort
  dedupWarmFile : after.dedupWarmFile = c.dedupWarmFile

theorem lastValue_append (tag : Tag) (first second : List Setting) :
    lastValue tag (first ++ second) = (lastValue tag second).or (lastValue tag first) := by
  induction first with
  | nil => rw [List.nil_append, lastValue, Option.or_none]
  | cons s first ih => rw [List.cons_append, lastValue, lastValue, ih, Option.or_assoc]

namespace Reflects

theorem refl (c : VtsConfig) : Reflects [] c c := ⟨fun _ => rfl, rfl, rfl⟩

theorem trans {first second : List Setting} {c between after : VtsConfig} (one : Reflects first c between)
    (two : Reflects second between after) : Reflects (first ++ second) c after where
  fields := by
    intro tag
    rw [two.fields, one.fields, lastValue_append]
    cases lastValue tag second <;> rfl
  udpPort := two.udpPort.trans one.udpPort
  dedupWarmFile := two.dedupWarmFile.trans one.dedupWarmFile

end Reflects

/-- One round of the loop. -/
theorem Line.reflects (line : Line) {ending : Bytes} (ends : Ending ending) (c : VtsConfig) :
    Reflects line.settings c (parseLine c (cstr (line.text ++ ending))) where
  udpPort := rfl
  dedupWarmFile := rfl
  fields := by
    intro tag
    rw [field_parseLine]
    cases line with
    | setting s =>
      rw [text, s.parsed_line ends, settings, lastValue, lastValue, Option.none_or]
    | other line free without =>
      rw [text, parsed_other without ends, settings, lastValue]

theorem Line.free (line : Line) : 10 ∉ line.text := by
  cases line with
  | setting s =>
    exact s.not_mem_text (by decide) s.beforePlain.2.1 s.tag.name_free.2.1 s.written_plain.2.1 s.behindPlain.2.1
  | other text free without => exact free

theorem readConfig_nil (rounds : ℕ) (c : VtsConfig) : readConfig rounds [] c = some c := by
  cases rounds <;> rfl

theorem readConfig_last {line : Line} (short : line.text.length ≤ 511) {rounds : ℕ}
    (enough : line.text.length ≤ rounds) (c : VtsConfig) :
    ∃ after, readConfig rounds line.text c = some after ∧ Reflects line.settings c after := by
  cases empty : line.text with
  | nil =>
    have unset : line.settings = [] := by
      cases line with
      | setting s => exact absurd empty (by simp [Line.text, Setting.text, openTag_eq])
      | other text free without => rfl
    rw [unset]
    exact ⟨c, readConfig_nil rounds c, .refl c⟩
  | cons b rest =>
    have nonempty : line.text ≠ [] := empty ▸ List.cons_ne_nil b rest
    obtain ⟨rounds, rfl⟩ : ∃ fewer, rounds = fewer + 1 :=
      Nat.exists_eq_succ_of_ne_zero (by have := List.length_pos_of_ne_nil nonempty; omega)
    have step := line.reflects (.inr rfl) c
    rw [List.append_nil] at step
    rw [← empty, readConfig, fgets_last line.free nonempty (by omega)]
    exact ⟨_, readConfig_nil rounds _, step⟩

theorem fileText_cons (line : Line) (lines : List Line) (last : Option Line) :
    fileText (line :: lines) last = line.text ++ 10 :: fileText lines last := by
  simp [fileText]

theorem readConfig_lines {lines : List Line} (last : Option Line)
    (short : ∀ line ∈ lines, line.text.length + 1 ≤ 511) (lastShort : ∀ line ∈ last, line.text.length ≤ 511)
    {rounds : ℕ} (enough : (fileText lines last).length ≤ rounds) (c : VtsConfig) :
    ∃ after, readConfig rounds (fileText lines last) c = some after ∧
      Reflects ((lines ++ last.toList).flatMap Line.settings) c after := by
  induction lines generalizing rounds c with
  | nil =>
    cases last with
    | none => exact ⟨c, readConfig_nil rounds c, .refl c⟩
    | some line =>
      have whole : fileText [] (some line) = line.text := by simp [fileText]
      rw [whole] at enough ⊢
      obtain ⟨after, read, step⟩ := readConfig_last (lastShort line rfl) enough c
      refine ⟨after, read, ?_⟩
      simpa using step
  | cons line lines ih =>
    rw [fileText_cons, List.length_append, List.length_cons] at enough
    obtain ⟨rounds, rfl⟩ : ∃ fewer, rounds = fewer + 1 := Nat.exists_eq_succ_of_ne_zero (by omega)
    have fits := short line List.mem_cons_self
    have round := line.reflects (.inl rfl) c
    obtain ⟨after, read, rest⟩ := ih (fun line member => short line (List.mem_cons_of_mem _ member))
      (show (fileText lines last).length ≤ rounds by omega) (parseLine c (cstr (line.text ++ [10])))
    rw [fileText_cons, readConfig, fgets_line line.free (by omega)]
    refine ⟨after, read, ?_⟩
    rw [List.cons_append, List.flatMap_cons]
    exact round.trans rest

/-- A document of the schema is read with success: every field has the last value written for its element, or its
default if there is none, and the two fields without an element have theirs. -/
theorem vtsConfigLoad_reads (doc : Document) (out : VtsConfig) :
    ∃ after, vtsConfigLoad (some (some doc.text)) (some out) = some (0, some after) ∧
      (∀ tag, field after tag = (lastValue tag doc.settings).getD (field vtsConfigDefault tag)) ∧
      after.udpPort = vtsConfigDefault.udpPort ∧ after.dedupWarmFile = vtsConfigDefault.dedupWarmFile := by
  obtain ⟨after, read, reflects⟩ := readConfig_lines doc.last doc.short doc.lastShort le_rfl vtsConfigDefault
  have loaded : readConfig doc.text.length doc.text vtsConfigDefault = some after := read
  refine ⟨after, ?_, reflects.fields, reflects.udpPort, reflects.dedupWarmFile⟩
  rw [vtsConfigLoad, loaded, Option.map_some]

/-- The buffer cuts the numeral of a port after 63 digits. -/
theorem long_port_cut :
    Numeral.value (List.replicate 60 48 ++ literal "8080") = 8080 ∧
      vtsConfigLoad (some (some (literal "<port>" ++ (List.replicate 60 48 ++ literal "8080</port>\n"))))
        (some vtsConfigDefault) = some (0, some { vtsConfigDefault with port := 808 }) := by
  constructor <;> decide +kernel

/-- Numbers at the ends of their ranges; `udp_port` is no element. -/
example : vtsConfigLoad (some (some (literal
    "<udp_port>1</udp_port>\n <port>65535</port>\n<retry_max>-2147483648</retry_max>"))) (some vtsConfigDefault) =
    some (0, some { vtsConfigDefault with port := 65535, retryMax := -2147483648 }) := by decide +kernel

end ProcessMonitor.Soundness.ConfigFile
