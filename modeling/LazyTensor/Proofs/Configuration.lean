import LazyTensor.Configuration
import LazyTensor.Proofs.Text

/-!
# Configurations are read back

A configuration gives options to backends. It is written as a text in any order, with any white space and empty parts.
Splitting the text, and parsing what it has for each backend, gives back the options. A backend that takes options is
done if and only if it took them all.
-/

namespace LazyTensor

open List Option

open Text

/-! ## Texts of configurations -/

/-- A name that a backend can have in a text. -/
structure IsName (name : String) : Prop where
  trimmed : Trimmed name
  plain : ':' ∉ name.toList ∧ ';' ∉ name.toList

/-- A key that an option can have in a text. -/
structure IsKey (key : String) : Prop where
  ne_empty : key ≠ ""
  lower_eq : lower key = key
  trimmed : Trimmed key
  plain : ',' ∉ key.toList ∧ '=' ∉ key.toList ∧ ';' ∉ key.toList

/-- A value that an option can have in a text. -/
structure IsValue (value : String) : Prop where
  trimmed : Trimmed value
  plain : ',' ∉ value.toList ∧ ';' ∉ value.toList

/-- Options by distinct keys. -/
structure IsOptions (options : Settings) : Prop where
  keys : ∀ option ∈ options, IsKey option.1
  values : ∀ option ∈ options, IsValue option.2
  distinct : (options.map (·.1)).Nodup

/-- Options of backends by distinct names. -/
structure IsConfiguration (configuration : List (String × Settings)) : Prop where
  names : ∀ entry ∈ configuration, IsName entry.1
  options : ∀ entry ∈ configuration, IsOptions entry.2
  distinct : (configuration.map (·.1)).Nodup

instance (name : String) : Decidable (IsName name) :=
  decidable_of_iff (Trimmed name ∧ ':' ∉ name.toList ∧ ';' ∉ name.toList)
    ⟨fun h => ⟨h.1, h.2⟩, fun h => ⟨h.trimmed, h.plain⟩⟩

instance (key : String) : Decidable (IsKey key) :=
  decidable_of_iff (key ≠ "" ∧ lower key = key ∧ Trimmed key ∧ ',' ∉ key.toList ∧ '=' ∉ key.toList ∧ ';' ∉ key.toList)
    ⟨fun h => ⟨h.1, h.2.1, h.2.2.1, h.2.2.2⟩, fun h => ⟨h.ne_empty, h.lower_eq, h.trimmed, h.plain⟩⟩

instance (value : String) : Decidable (IsValue value) :=
  decidable_of_iff (Trimmed value ∧ ',' ∉ value.toList ∧ ';' ∉ value.toList)
    ⟨fun h => ⟨h.1, h.2⟩, fun h => ⟨h.trimmed, h.plain⟩⟩

instance (options : Settings) : Decidable (IsOptions options) :=
  decidable_of_iff ((∀ option ∈ options, IsKey option.1) ∧ (∀ option ∈ options, IsValue option.2) ∧
      (options.map (·.1)).Nodup)
    ⟨fun h => ⟨h.1, h.2.1, h.2.2⟩, fun h => ⟨h.keys, h.values, h.distinct⟩⟩

instance (configuration : List (String × Settings)) : Decidable (IsConfiguration configuration) :=
  decidable_of_iff ((∀ entry ∈ configuration, IsName entry.1) ∧ (∀ entry ∈ configuration, IsOptions entry.2) ∧
      (configuration.map (·.1)).Nodup)
    ⟨fun h => ⟨h.1, h.2.1, h.2.2⟩, fun h => ⟨h.names, h.options, h.distinct⟩⟩

/-- A text `key=value`, with any white space around key and value. -/
def WritesOption (option : String × String) (text : String) : Prop :=
  ∃ key value, Padded option.1 key ∧ Padded option.2 value ∧ text = key ++ "=" ++ value

/-- A text `key=value,key=value,...`, with the options in any order and with any empty parts. -/
def WritesOptions (options : Settings) (text : String) : Prop := Lists WritesOption ',' options text

/-- A text `name:options`, with any white space around the name. -/
def WritesEntry (entry : String × Settings) (text : String) : Prop :=
  ∃ name options, Padded entry.1 name ∧ WritesOptions entry.2 options ∧ text = name ++ ":" ++ options

/-- A text `name:options;name:options;...`, with the backends in any order and with any empty parts. -/
def WritesConfiguration (configuration : List (String × Settings)) (text : String) : Prop :=
  Lists WritesEntry ';' configuration text

/-! ## Settings -/

theorem Settings.insert_of_notMem {s : Settings} {key : String} (h : key ∉ s.map (·.1)) (value : String) :
    s.insert key value = s ++ [(key, value)] := by
  have herase : s.erase key = s := by
    refine filter_eq_self.mpr fun p hp => ?_
    have hne : p.1 ≠ key := fun heq => h (heq ▸ List.mem_map_of_mem hp)
    simpa using hne
  rw [insert, herase]

/-! ## Options -/

namespace Options

variable {options : Settings} {text backend : String} {option : String × String}

theorem notMem_of_writesOption {c : Char} (h : WritesOption option text) (hc : isBlank c = false) (hsep : c ≠ '=')
    (hkey : c ∉ option.1.toList) (hvalue : c ∉ option.2.toList) : c ∉ text.toList := by
  obtain ⟨key, value, hpadded, hpadded', rfl⟩ := h
  simp [hpadded.notMem hc hkey, hpadded'.notMem hc hvalue, hsep]

theorem parsePart_trim (h : WritesOption option text) (hkey : IsKey option.1) (hvalue : IsValue option.2)
    (o : Options) : parsePart o (trim text) = .ok { o with values := o.values.insert option.1 option.2 } := by
  obtain ⟨key, value, hpadded, hpadded', rfl⟩ := h
  obtain ⟨key', value', hcut, hkey', hvalue'⟩ :=
    cut_trim '=' (by decide) (hpadded.notMem (by decide) hkey.plain.2.1) value
  rw [hpadded.trim_eq hkey.trimmed] at hkey'
  rw [hpadded'.trim_eq hvalue.trimmed] at hvalue'
  have hcut : cut '=' (trim (key ++ "=" ++ value)) = (key', some value') := hcut
  simp only [parsePart, hcut, hkey', hkey.lower_eq, if_neg hkey.ne_empty, getD_some, hvalue']

theorem foldlM_parsePart {texts : List String} {values : Settings}
    (h : List.Forall₂ (fun option text => ∃ part, WritesOption option part ∧ text = trim part) options texts)
    (hkeys : ∀ option ∈ options, IsKey option.1) (hvalues : ∀ option ∈ options, IsValue option.2)
    (hdistinct : ((values ++ options).map (·.1)).Nodup) :
    texts.foldlM parsePart ⟨backend, values⟩ = .ok ⟨backend, values ++ options⟩ := by
  induction h generalizing values with
  | nil => rw [append_nil]; rfl
  | @cons option text options texts hpart _ ih =>
    obtain ⟨part, hpart, rfl⟩ := hpart
    have hnew : option.1 ∉ values.map (·.1) := by
      rw [map_append] at hdistinct
      exact fun hmem => (nodup_append.mp hdistinct).2.2 _ hmem _ (.head _) rfl
    rw [foldlM_cons, parsePart_trim hpart (hkeys option (.head _)) (hvalues option (.head _)),
      Settings.insert_of_notMem hnew]
    rw [append_cons values option options] at hdistinct ⊢
    exact ih (fun o ho => hkeys o (.tail _ ho)) (fun o ho => hvalues o (.tail _ ho))
      hdistinct

theorem parse_of_lists (h : WritesOptions options text) (hoptions : IsOptions options) (backend : String) :
    ∃ order, order.Perm options ∧ parse backend (trim text) = .ok ⟨backend, order⟩ := by
  obtain ⟨order, hperm, hparts⟩ := h.forall₂_trimmedParts (by decide) fun option hoption part hpart =>
    have hkey := (hoptions.keys option hoption).plain
    have hvalue := (hoptions.values option hoption).plain
    ⟨notMem_of_writesOption hpart (by decide) (by decide) hkey.1 hvalue.1, by
      obtain ⟨key, value, -, -, rfl⟩ := hpart
      exact trim_append_ne_empty '=' (by decide) key value⟩
  refine ⟨order, hperm, ?_⟩
  rw [parse, trimmedParts_trim (by decide)]
  refine foldlM_parsePart hparts ?_ ?_ ?_
  · exact fun option ho => hoptions.keys option (hperm.mem_iff.mp ho)
  · exact fun option ho => hoptions.values option (hperm.mem_iff.mp ho)
  · exact (hperm.map (·.1)).nodup_iff.mpr hoptions.distinct

/-! ## Options that are taken -/

/-- A way to take an option. -/
inductive Pop where
  | string (key default : String)
  | integer (key : String) (default : Int)
  | boolean (key : String) (default : Bool)

def Pop.key : Pop → String
  | .string key _ => key
  | .integer key _ => key
  | .boolean key _ => key

/-- The options after one was taken. -/
def after (o : Options) : Pop → Options
  | .string key default => (o.popString key default).2
  | .integer key default => (o.popInt key default).2
  | .boolean key default => (o.popBool key default).2

theorem values_after (o : Options) (p : Pop) : (o.after p).values = o.values.erase p.key := by
  cases p with
  | string key default => rfl
  | integer key default =>
    simp only [after, popInt]
    split
    · rfl
    · split <;> rfl
  | boolean key default =>
    simp only [after, popBool]
    split
    · rfl
    · split <;> rfl

theorem values_foldl_after (pops : List Pop) (o : Options) :
    (pops.foldl after o).values = o.values.filter fun option => option.1 ∉ pops.map Pop.key := by
  induction pops generalizing o with
  | nil => simp
  | cons p pops ih =>
    rw [foldl_cons, ih, values_after, Settings.erase, List.filter_filter]
    refine filter_congr fun option _ => ?_
    rw [Bool.eq_iff_iff]
    simp [and_comm]

theorem done_eq_ok_iff (o : Options) : o.done = .ok () ↔ o.values = [] := by
  rw [done]
  split
  · rename_i hempty
    simpa using hempty
  · rename_i hempty
    constructor
    · intro h
      cases h
    · intro h
      simp [h] at hempty

theorem done_after_iff (pops : List Pop) (o : Options) :
    (pops.foldl after o).done = .ok () ↔ ∀ option ∈ o.values, option.1 ∈ pops.map Pop.key := by
  rw [done_eq_ok_iff, values_foldl_after]
  simp

end Options

/-! ## Configurations -/

namespace Configuration

variable {configuration : List (String × Settings)} {text : String} {entry : String × Settings} {settings : Settings}

theorem notMem_of_writesEntry (h : WritesEntry entry text) (hname : IsName entry.1) (hoptions : IsOptions entry.2) :
    ';' ∉ text.toList := by
  obtain ⟨name, options, hpadded, hlists, rfl⟩ := h
  have hoption : ';' ∉ options.toList := hlists.notMem (by decide) (by decide) fun option ho part hpart =>
    Options.notMem_of_writesOption hpart (by decide) (by decide) (hoptions.keys option ho).plain.2.2
      (hoptions.values option ho).plain.2
  simp [hpadded.notMem (by decide) hname.plain.2, hoption]

/-- The configuration of a backend in a text is a text of its options. -/
def Configures (entry : String × Settings) (setting : String × String) : Prop :=
  setting.1 = entry.1 ∧ ∃ text, WritesOptions entry.2 text ∧ setting.2 = trim text

theorem foldl_insert {texts : List String}
    (h : List.Forall₂ (fun entry text => ∃ part, WritesEntry entry part ∧ text = trim part) configuration texts)
    (hnames : ∀ entry ∈ configuration, IsName entry.1)
    (hdistinct : (settings.map (·.1) ++ configuration.map (·.1)).Nodup) :
    ∃ new, texts.foldl (fun settings part =>
        let (name, configuration) := cut ':' part
        settings.insert (trim name) (trim (configuration.getD ""))) settings = settings ++ new ∧
      List.Forall₂ Configures configuration new := by
  induction h generalizing settings with
  | nil => exact ⟨[], by rw [append_nil]; rfl, .nil⟩
  | @cons entry text configuration texts hpart _ ih =>
    obtain ⟨part, ⟨name, options, hpadded, hlists, rfl⟩, rfl⟩ := hpart
    have hname := hnames entry (.head _)
    obtain ⟨name', options', hcut, hname', hoptions'⟩ :=
      cut_trim ':' (by decide) (hpadded.notMem (by decide) hname.plain.1) options
    have hcut : cut ':' (trim (name ++ ":" ++ options)) = (name', some options') := hcut
    -- no entry is replaced, as the names differ
    have hnew : entry.1 ∉ settings.map (·.1) :=
      fun hmem => (nodup_append.mp hdistinct).2.2 _ hmem _ (.head _) rfl
    have hdistinct' : ((settings ++ [(entry.1, trim options)]).map (·.1) ++ configuration.map (·.1)).Nodup := by
      simpa using hdistinct
    obtain ⟨new, hfold, hall⟩ := ih (fun e he => hnames e (.tail _ he)) hdistinct'
    refine ⟨(entry.1, trim options) :: new, ?_, .cons ⟨rfl, options, hlists, rfl⟩ hall⟩
    rw [foldl_cons, hcut]
    simp only [getD_some, hname', hoptions', hpadded.trim_eq hname.trimmed, Settings.insert_of_notMem hnew,
      hfold, append_assoc, singleton_append]

theorem split_of_lists (h : WritesConfiguration configuration text) (hconfiguration : IsConfiguration configuration) :
    ∃ order, order.Perm configuration ∧ List.Forall₂ Configures order (split text) := by
  obtain ⟨order, hperm, hparts⟩ := h.forall₂_trimmedParts (by decide) fun entry hentry part hpart =>
    ⟨notMem_of_writesEntry hpart (hconfiguration.names entry hentry) (hconfiguration.options entry hentry), by
      obtain ⟨name, options, -, -, rfl⟩ := hpart
      exact trim_append_ne_empty ':' (by decide) name options⟩
  have hdistinct : (order.map (·.1)).Nodup := (hperm.map (·.1)).nodup_iff.mpr hconfiguration.distinct
  obtain ⟨new, hfold, hall⟩ : ∃ new, split text = [] ++ new ∧ List.Forall₂ Configures order new :=
    foldl_insert hparts (fun entry hentry => hconfiguration.names entry (hperm.mem_iff.mp hentry)) hdistinct
  refine ⟨order, hperm, ?_⟩
  rwa [hfold]

theorem map_name_eq (h : List.Forall₂ Configures configuration settings) :
    settings.map (·.1) = configuration.map (·.1) := by
  induction h with
  | nil => rfl
  | cons hentry _ ih => rw [map_cons, map_cons, hentry.1, ih]

theorem exists_get? (h : List.Forall₂ Configures configuration settings) (hdistinct : (configuration.map (·.1)).Nodup)
    (hentry : entry ∈ configuration) :
    ∃ text, settings.get? entry.1 = some (trim text) ∧ WritesOptions entry.2 text := by
  induction h with
  | nil => cases hentry
  | @cons first setting configuration settings hfirst _ ih =>
    obtain ⟨hname, text, htext, hvalue⟩ := hfirst
    rw [map_cons, nodup_cons] at hdistinct
    rcases mem_cons.mp hentry with rfl | hentry
    · refine ⟨text, ?_, htext⟩
      rw [Settings.get?, lookup_cons, hname, beq_self_eq_true, hvalue]
    · have hne : (entry.1 == setting.1) = false := by
        rw [hname]
        exact beq_false_of_ne fun heq => hdistinct.1 (heq ▸ List.mem_map_of_mem hentry)
      obtain ⟨text', hget, htext'⟩ := ih hdistinct.2 hentry
      refine ⟨text', ?_, htext'⟩
      rwa [Settings.get?, lookup_cons, hne]

/-- What is written is read back, in whatever order and with whatever white space and empty parts it is written: the
backends have their names, each backend has its options, and it is done once it took them all. -/
theorem split_parse (configuration : List (String × Settings)) (hconfiguration : IsConfiguration configuration)
    (text : String) (htext : WritesConfiguration configuration text) :
    ((split text).map (·.1)).Perm (configuration.map (·.1)) ∧
    ∀ entry ∈ configuration, ∃ (setting : String) (o : Options), (split text).get? entry.1 = some setting ∧
      Options.parse entry.1 setting = .ok o ∧ o.values.Perm entry.2 ∧
      ∀ pops : List Options.Pop, (pops.foldl Options.after o).done = .ok () ↔
        ∀ option ∈ entry.2, option.1 ∈ pops.map Options.Pop.key := by
  obtain ⟨order, hperm, hall⟩ := split_of_lists htext hconfiguration
  refine ⟨?_, fun entry hentry => ?_⟩
  · rw [map_name_eq hall]
    exact hperm.map (·.1)
  · have hdistinct : (order.map (·.1)).Nodup := (hperm.map (·.1)).nodup_iff.mpr hconfiguration.distinct
    obtain ⟨part, hget, hpart⟩ := exists_get? hall hdistinct (hperm.mem_iff.mpr hentry)
    obtain ⟨values, hvalues, hparse⟩ := Options.parse_of_lists hpart (hconfiguration.options entry hentry) entry.1
    refine ⟨trim part, ⟨entry.1, values⟩, hget, hparse, hvalues, fun pops => ?_⟩
    rw [Options.done_after_iff]
    exact ⟨fun h option ho => h option (hvalues.mem_iff.mpr ho), fun h option ho => h option (hvalues.mem_iff.mp ho)⟩

/-- Two backends, one without a name and options; a value has the separators of keys and names in it. -/
theorem split_parse_two_backends :
    let options : Settings := [("parallelism", "4"), ("note", "a=b:c")]
    let configuration : List (String × Settings) := [("", []), ("cpu", options)]
    let text := " ;\tcpu : note = a=b:c ,, parallelism=4;:"
    IsConfiguration configuration ∧ WritesConfiguration configuration text ∧
      ∃ setting o, (split text).get? "cpu" = some setting ∧ Options.parse "cpu" setting = .ok o ∧
        o.values.Perm options ∧
        (Options.after (o.after (.integer "parallelism" 0)) (.string "note" "")).done = .ok () ∧
        (o.after (.string "note" "")).done ≠ .ok () := by
  intro options configuration text
  have hconfiguration : IsConfiguration configuration := by decide +kernel
  have hoptions : WritesOptions options " note = a=b:c ,, parallelism=4" := by
    refine ⟨[("note", "a=b:c"), ("parallelism", "4")], [" note = a=b:c ", "", " parallelism=4"], .swap .., ?_,
      by decide +kernel⟩
    refine .item _ _ ⟨" note ", " a=b:c ", ?_, ?_, by decide +kernel⟩ (.blank _ (by decide) (.item _ _ ?_ .nil))
    · exact ⟨" ", " ", by decide +kernel, by decide +kernel, by decide +kernel⟩
    · exact ⟨" ", " ", by decide +kernel, by decide +kernel, by decide +kernel⟩
    · exact ⟨" parallelism", "4", ⟨" ", "", by decide +kernel, by decide, by decide +kernel⟩,
        ⟨"", "", by decide, by decide, by decide +kernel⟩, by decide +kernel⟩
  have htext : WritesConfiguration configuration text := by
    refine ⟨[("cpu", options), ("", [])], [" ", "\tcpu : note = a=b:c ,, parallelism=4", ":"], .swap .., ?_,
      by decide +kernel⟩
    refine .blank _ (by decide +kernel) (.item _ _ ⟨"\tcpu ", _, ?_, hoptions, by decide +kernel⟩ (.item _ _ ?_ .nil))
    · exact ⟨"\t", " ", by decide +kernel, by decide +kernel, by decide +kernel⟩
    · exact ⟨"", "", ⟨"", "", by decide, by decide, rfl⟩, ⟨[], [], .refl _, .nil, by decide +kernel⟩, by decide +kernel⟩
  obtain ⟨setting, o, hget, hparse, hvalues, hdone⟩ :=
    (split_parse configuration hconfiguration text htext).2 ("cpu", options) (by simp [configuration])
  refine ⟨hconfiguration, htext, setting, o, hget, hparse, hvalues, ?_, ?_⟩
  · exact (hdone [.integer "parallelism" 0, .string "note" ""]).mpr (by decide)
  · exact fun h => absurd ((hdone [.string "note" ""]).mp h) (by decide)

end Configuration

end LazyTensor
