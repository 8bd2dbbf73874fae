import LazyTensor.ByteSize
import LazyTensor.Failure
import LazyTensor.Text.LowerCase
import LazyTensor.Text.Listing
import LazyTensor.Text.Quoted
import LazyTensor.Text.Split

/-!
# Configuration

The configuration of all backends is a text such as `cpu:parallelism=4;webgpu:power=low`. Each
backend reads its part as options, takes the ones it knows, and rejects the rest.
-/

namespace LazyTensor

/-- Values by name. A later value replaces an earlier one. -/
abbrev Settings := List (String × String)

namespace Settings

def get? (s : Settings) (key : String) : Option String := s.lookup key

def erase (s : Settings) (key : String) : Settings := s.filter (·.1 != key)

def insert (s : Settings) (key value : String) : Settings := s.erase key ++ [(key, value)]

end Settings

namespace Configuration

/-- The configuration of each backend in a text of parts `name:configuration` divided by `;`. -/
def split (s : String) : Settings :=
  (Text.trimmedParts ';' s).foldl (fun settings part =>
    let (name, configuration) := Text.cut ':' part
    settings.insert (Text.trim name) (Text.trim (configuration.getD ""))) []

end Configuration

/-- The options of a backend that were not taken yet. -/
structure Options where
  backend : String
  values : Settings

namespace Options

inductive Error where
  | noKey (part backend : String)
  | notInteger (value key backend : String)
  | integerRange (value key backend : String)
  | notBoolean (value key backend : String)
  | memoryLimit (value : String) (cause : ByteSize.Error)
  | unknown (keys : List String) (backend : String)

/-- The text before the reason why the value of an option cannot be read. -/
def invalidValue (value key backend : String) : String :=
  s!"invalid value {Text.quote value} for option {Text.quote key} of {backend} backend"

instance : Failure Error where
  kind _ := .plain
  message
    | .noKey part backend =>
      s!"invalid configuration option {Text.quote part} for {backend} backend"
    | .notInteger value key backend => context (invalidValue value key backend)
      s!"strconv.Atoi: parsing {Text.quote value}: invalid syntax"
    | .integerRange value key backend => context (invalidValue value key backend)
      s!"strconv.Atoi: parsing {Text.quote value}: value out of range"
    | .notBoolean value key backend => context (invalidValue value key backend)
      s!"strconv.ParseBool: parsing {Text.quote value}: invalid syntax"
    | .memoryLimit value cause => context s!"invalid memory limit {Text.quote value}" cause.reason
    | .unknown keys backend =>
      s!"unknown configuration option(s) {Text.listing (keys.map Text.quote)} for {backend} backend"

/-- Options with one more part `key=value`. A key alone has the value `true`. -/
def parsePart (o : Options) (part : String) : Except Error Options :=
  let (key, value) := Text.cut '=' part
  let key := Text.lower (Text.trim key)
  if key = "" then .error (.noKey part o.backend)
  else .ok { o with values := o.values.insert key (Text.trim (value.getD "true")) }

/-- The options in a text of parts `key=value` divided by `,`. -/
def parse (backend configuration : String) : Except Error Options :=
  (Text.trimmedParts ',' configuration).foldlM parsePart ⟨backend, []⟩

/-- Takes the value of a key, if there is one. -/
def pop (o : Options) (key : String) : Option String × Options :=
  (o.values.get? key, { o with values := o.values.erase key })

/-- What reading the digits of an integer can give. -/
inductive Digits where
  | value (n : Nat)
  | invalid
  | overflow

/-- Reads decimal digits from the left, up to the first number that is no word of 64 bits. -/
def readDigits (n : Nat) : List Char → Digits
  | [] => .value n
  | c :: cs =>
    if !c.isDigit then .invalid
    else
      let next := 10 * n + (c.toNat - '0'.toNat)
      if pow2 64 ≤ next then .overflow else readDigits next cs

/-- Reads digits of which there must be one. -/
def readNumber : List Char → Digits
  | [] => .invalid
  | cs => readDigits 0 cs

/-- An integer of 64 bits with an optional sign. The error says whether it is out of range. -/
def readInteger (s : String) : Except Bool Int :=
  let (negative, digits) := match s.toList with
    | '-' :: cs => (true, cs)
    | '+' :: cs => (false, cs)
    | cs => (false, cs)
  match readNumber digits with
  | .invalid => .error false
  | .overflow => .error true
  | .value n =>
    if negative then if n ≤ pow2 63 then .ok (-n) else .error true
    else if n < pow2 63 then .ok n else .error true

/-- The words for true and false. -/
def readBoolean (s : String) : Option Bool :=
  if s ∈ ["1", "t", "T", "TRUE", "true", "True"] then some true
  else if s ∈ ["0", "f", "F", "FALSE", "false", "False"] then some false
  else none

/-- Takes a text. -/
def popString (o : Options) (key default : String) : String × Options :=
  let (value, o) := o.pop key
  (value.getD default, o)

/-- Takes an integer. A value that is none is taken too. -/
def popInt (o : Options) (key : String) (default : Int) : Except Error Int × Options :=
  let (value, o) := o.pop key
  match value with
  | none => (.ok default, o)
  | some value => match readInteger value with
    | .ok n => (.ok n, o)
    | .error true => (.error (.integerRange value key o.backend), o)
    | .error false => (.error (.notInteger value key o.backend), o)

/-- Takes a truth value. A value that is none is taken too. -/
def popBool (o : Options) (key : String) (default : Bool) : Except Error Bool × Options :=
  let (value, o) := o.pop key
  match value with
  | none => (.ok default, o)
  | some value => match readBoolean value with
    | some b => (.ok b, o)
    | none => (.error (.notBoolean value key o.backend), o)

/-- Fails if an option was not taken. -/
def done (o : Options) : Except Error Unit :=
  if o.values.isEmpty then .ok ()
  else .error (.unknown ((o.values.map (·.1)).mergeSort (· ≤ ·)) o.backend)

/-- A memory limit in bytes; the empty text is no limit. -/
def memoryLimit (value : String) : Except Error UInt64 :=
  if value = "" then .ok 0
  else match ByteSize.parse value with
    | .ok n => .ok n
    | .error e => .error (.memoryLimit value e)

end Options

end LazyTensor
