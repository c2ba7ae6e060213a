/-
# `Dqrvcs.Flags` — the command line as Go's `flag` package reads it

`cmdCommit`, `cmdAmend`, `cmdRevert`, `cmdSquash`, `cmdOp` and `cmdSync` read
their options with `flag.NewFlagSet(name, flag.ContinueOnError)` and
`fs.Parse(args)`.  The model follows `FlagSet.parseOne`: an argument that is
not `-` followed by something ends the flags and is the first of `fs.Args()`;
`--` ends them and is dropped; `-name` and `--name` are one flag, `=` splits
off a value; a boolean flag takes its value only after `=`, any other flag
takes the next argument when it has none; a flag given twice keeps the last
value.  The values are set as `boolValue.Set` (`strconv.ParseBool`),
`intValue.Set` (`strconv.ParseInt(s, 0, 64)`, on a 64-bit platform) and
`stringValue.Set` do it.

`strconv.ParseInt` in base 0 is written out: a sign, a base prefix (`0x`,
`0o`, `0b`, or a leading `0` for octal), digits of the base, underscores
between digits (`underscoreOK`), and a range error at the first digit that
overflows 64 bits, even before a later bad digit.

What the parser accepts is what a command line spelled with `-name=value`
says: every setting of defined flags, written so and followed by `--` and
any arguments, parses back to those settings and those arguments
(`parseFlags_render`).
-/
import Dqrvcs.Bytes

namespace Dqrvcs

/-! ## `strconv` -/

/-- `strconv.ParseBool`. -/
def parseBool (s : Bytes) : Option Bool :=
  if s ∈ [ascii "1", ascii "t", ascii "T", ascii "TRUE", ascii "true", ascii "True"] then
    some true
  else if s ∈ [ascii "0", ascii "f", ascii "F", ascii "FALSE", ascii "false", ascii "False"] then
    some false
  else none

/-- The two errors of `strconv`'s integer parsers, `ErrSyntax` (`invalid`) and `ErrRange`. -/
inductive NumError
  | invalid
  | range
deriving DecidableEq, Repr

/-- The text `flag` reports for each: `errParse` and `errRange`. -/
def NumError.message : NumError → Bytes
  | .invalid => ascii "parse error"
  | .range => ascii "value out of range"

/-- `lower(c)` of `strconv`: `c | ('x' - 'X')`. -/
def lowerByte (c : UInt8) : UInt8 := c ||| 0x20

/-- The value of a digit as `ParseUint` reads it: `0`–`9`, then letters from
ten on, either case. -/
def digitValue (c : UInt8) : Option Nat :=
  if 0x30 ≤ c ∧ c ≤ 0x39 then some (c.toNat - 0x30)
  else if 0x61 ≤ lowerByte c ∧ lowerByte c ≤ 0x7A then some ((lowerByte c).toNat - 0x61 + 10)
  else none

/-- `math.MaxUint64`. -/
def maxUint64 : Nat := 2 ^ 64 - 1

/-- The digit loop of `strconv.ParseUint` in base 0: underscores are skipped
and noted, the first digit that overflows is a range error at once.  Returns
the value and whether an underscore was seen. -/
def parseUintLoop (base : Nat) : Bytes → Nat → Bool → Except NumError (Nat × Bool)
  | [], n, underscores => .ok (n, underscores)
  | c :: s, n, underscores =>
    if c = 0x5F then parseUintLoop base s n true else
    match digitValue c with
    | none => .error .invalid
    | some d =>
      if base ≤ d then .error .invalid
      else if maxUint64 / base + 1 ≤ n then .error .range
      else if maxUint64 < n * base + d then .error .range
      else parseUintLoop base s (n * base + d) underscores

/-- What `underscoreOK` last saw: the start, a digit or base prefix, an
underscore, or anything else. -/
inductive Saw
  | start
  | digit
  | underscore
  | other
deriving DecidableEq, Repr

/-- The loop of `underscoreOK`. -/
def underscoreLoop (hex : Bool) : Saw → Bytes → Bool
  | saw, [] => saw != .underscore
  | saw, c :: s =>
    if (0x30 ≤ c ∧ c ≤ 0x39) ∨ (hex = true ∧ 0x61 ≤ lowerByte c ∧ lowerByte c ≤ 0x66) then
      underscoreLoop hex .digit s
    else if c = 0x5F then
      if saw ≠ .digit then false else underscoreLoop hex .underscore s
    else if saw = .underscore then false
    else underscoreLoop hex .other s

/-- `underscoreOK(s)`: every underscore stands between digits, a base prefix
counting as a digit. -/
def underscoreOK (s : Bytes) : Bool :=
  let s := match s with
    | c :: t => if c = 0x2D ∨ c = 0x2B then t else c :: t
    | [] => []
  match s with
  | z :: c :: t =>
    if z = 0x30 ∧ (lowerByte c = 0x62 ∨ lowerByte c = 0x6F ∨ lowerByte c = 0x78) then
      underscoreLoop (lowerByte c = 0x78) .digit t
    else underscoreLoop false .start (z :: c :: t)
  | s => underscoreLoop false .start s

/-- The base `ParseUint` reads from the prefix of `s`, and the digits after
it. -/
def basePrefix : Bytes → Nat × Bytes
  | z :: c :: d :: t =>
    if z ≠ 0x30 then (10, z :: c :: d :: t)
    else if lowerByte c = 0x62 then (2, d :: t)
    else if lowerByte c = 0x6F then (8, d :: t)
    else if lowerByte c = 0x78 then (16, d :: t)
    else (8, c :: d :: t)
  | z :: t => if z = 0x30 then (8, t) else (10, z :: t)
  | [] => (10, [])

/-- `strconv.ParseUint(s, 0, 64)`. -/
def parseUint (s : Bytes) : Except NumError Nat :=
  if s = [] then .error .invalid else
  match parseUintLoop (basePrefix s).1 (basePrefix s).2 0 false with
  | .error e => .error e
  | .ok (n, underscores) =>
    if underscores = true ∧ underscoreOK s = false then .error .invalid else .ok n

/-- `strconv.ParseInt(s, 0, 64)`. -/
def parseInt (s : Bytes) : Except NumError Int :=
  if s = [] then .error .invalid else
  let (neg, s) : Bool × Bytes := match s with
    | c :: t => if c = 0x2B then (false, t) else if c = 0x2D then (true, t) else (false, c :: t)
    | [] => (false, [])
  match parseUint s with
  | .error e => .error e
  | .ok un =>
    if neg = false ∧ 2 ^ 63 ≤ un then .error .range
    else if neg = true ∧ 2 ^ 63 < un then .error .range
    else .ok (if neg then -(un : Int) else un)

/-- `strconv.Itoa`. -/
def formatInt (n : Int) : Bytes :=
  if n < 0 then ascii "-" ++ formatUint n.natAbs else formatUint n.natAbs

example : parseInt (ascii "0x1F") = .ok 31 := rfl
example : parseInt (ascii "-0b1_01") = .ok (-5) := rfl
example : parseInt (ascii "017") = .ok 15 := rfl
example : parseInt (ascii "1__0") = .error .invalid := rfl
example : parseInt (ascii "9223372036854775808") = .error .range := rfl
example : parseInt (ascii "99999999999999999999x") = .error .range := rfl

/-! ## `FlagSet.Parse` -/

/-- A flag's value, of one of the kinds the commands define. -/
inductive FlagValue
  | bool (b : Bool)
  | int (n : Int)
  | string (s : Bytes)
deriving DecidableEq, Repr

/-- A flag as `fs.Bool`, `fs.Int` or `fs.String` defines it: its name and
default, whose kind is the flag's. -/
structure Flag where
  name : Bytes
  default : FlagValue
deriving DecidableEq, Repr

/-- `IsBoolFlag()`: a boolean flag needs no argument. -/
def FlagValue.isBool : FlagValue → Bool
  | .bool _ => true
  | _ => false

/-- `Value.Set(s)` for a flag whose current value is `v`. -/
def FlagValue.set : FlagValue → Bytes → Except NumError FlagValue
  | .bool _, s => match parseBool s with
    | some b => .ok (.bool b)
    | none => .error .invalid
  | .int _, s => match parseInt s with
    | .ok n => .ok (.int n)
    | .error e => .error e
  | .string _, s => .ok (.string s)

/-- The errors of `FlagSet.Parse`. -/
inductive FlagError
  | badSyntax (arg : Bytes)
  | notDefined (name : Bytes)
  | help
  | invalidBool (value name : Bytes)
  | needsArgument (name : Bytes)
  | invalidValue (value name : Bytes) (e : NumError)
deriving DecidableEq, Repr

/-- `%q` of an ASCII text: quotes, with `"`, `\` and the control characters
escaped as `strconv.Quote` escapes them. -/
def quoteByte (b : UInt8) : Bytes :=
  if b = 0x22 then [0x5C, 0x22]
  else if b = 0x5C then [0x5C, 0x5C]
  else if b = 0x07 then ascii "\\a"
  else if b = 0x08 then ascii "\\b"
  else if b = 0x0C then ascii "\\f"
  else if b = 0x0A then ascii "\\n"
  else if b = 0x0D then ascii "\\r"
  else if b = 0x09 then ascii "\\t"
  else if b = 0x0B then ascii "\\v"
  else if b < 0x20 ∨ b = 0x7F then ascii "\\x" ++ [hexDigit (b.toNat / 16), hexDigit (b.toNat % 16)]
  else [b]

/-- `fmt.Sprintf("%q", s)`, byte by byte. -/
def quote (s : Bytes) : Bytes := [0x22] ++ s.flatMap quoteByte ++ [0x22]

/-- The text of each error, as `failf` formats it. -/
def FlagError.message : FlagError → Bytes
  | .badSyntax arg => ascii "bad flag syntax: " ++ arg
  | .notDefined name => ascii "flag provided but not defined: -" ++ name
  | .help => ascii "flag: help requested"
  | .invalidBool value name =>
    ascii "invalid boolean value " ++ quote value ++ ascii " for -" ++ name ++ ascii ": parse error"
  | .needsArgument name => ascii "flag needs an argument: -" ++ name
  | .invalidValue value name e =>
    ascii "invalid value " ++ quote value ++ ascii " for flag -" ++ name ++ ascii ": " ++ e.message

/-- The flag name and value `parseOne` reads from an argument `s` that starts
with a dash: the dashes dropped, then split at the first `=`. -/
def flagName (s : Bytes) : Bytes × Option Bytes :=
  let name := if s.get? 1 = some 0x2D then s.drop 2 else s.drop 1
  match name.span (· != 0x3D) with
  | (name, []) => (name, none)
  | (name, _ :: value) => (name, some value)

/-- What `parseOne` makes of one argument, before it looks at the next. -/
inductive ParseStep
  /-- Not a flag: the flags end here, the argument is kept. -/
  | notFlag
  /-- `--`: the flags end, the argument is dropped. -/
  | terminator
  | error (e : FlagError)
  /-- A setting, complete in this argument. -/
  | set (x : Bytes × FlagValue)
  /-- A flag that is not boolean and has no `=`: its value is the next
  argument. -/
  | needsValue (name : Bytes) (current : FlagValue)
deriving DecidableEq, Repr

/-- `FlagSet.parseOne` on the argument `s`, up to taking a value from the
next argument. -/
def parseOne (flags : List Flag) (s : Bytes) : ParseStep :=
  if s.length < 2 ∨ s.head? ≠ some 0x2D then .notFlag
  else if s = ascii "--" then .terminator
  else
    let body := if s.get? 1 = some 0x2D then s.drop 2 else s.drop 1
    if body.head? = none ∨ body.head? = some 0x2D ∨ body.head? = some 0x3D then
      .error (.badSyntax s)
    else
    let (name, value) := flagName s
    match flags.find? (·.name = name) with
    | none =>
      if name = ascii "help" ∨ name = ascii "h" then .error .help else .error (.notDefined name)
    | some f =>
      if f.default.isBool then
        match value with
        | some v =>
          match f.default.set v with
          | .ok x => .set (name, x)
          | .error _ => .error (.invalidBool v name)
        | none => .set (name, .bool true)
      else
        match value with
        | some v =>
          match f.default.set v with
          | .ok x => .set (name, x)
          | .error e => .error (.invalidValue v name e)
        | none => .needsValue name f.default

/-- `FlagSet.Parse(arguments)` over the flags `flags`, after the settings
`set` so far: every setting made, in order, and `fs.Args()`; or the first
error. -/
def parseFlags (flags : List Flag) :
    List Bytes → List (Bytes × FlagValue) → Except FlagError (List (Bytes × FlagValue) × List Bytes)
  | [], set => .ok (set, [])
  | s :: args, set =>
    match parseOne flags s with
    | .notFlag => .ok (set, s :: args)
    | .terminator => .ok (set, args)
    | .error e => .error e
    | .set x => parseFlags flags args (set ++ [x])
    | .needsValue name d =>
      match args with
      | [] => .error (.needsArgument name)
      | v :: rest =>
        match d.set v with
        | .ok x => parseFlags flags rest (set ++ [(name, x)])
        | .error e => .error (.invalidValue v name e)

/-- The value of the flag `name` after the settings `set`: the last one made,
else its default. -/
def flagValue (flags : List Flag) (set : List (Bytes × FlagValue)) (name : Bytes) :
    Option FlagValue :=
  match set.reverse.find? (·.1 = name) with
  | some (_, v) => some v
  | none => (flags.find? (·.name = name)).map (·.default)

/-- `*fs.Bool(name, ...)` after parsing. -/
def boolFlag (flags : List Flag) (set : List (Bytes × FlagValue)) (name : Bytes) : Bool :=
  match flagValue flags set name with
  | some (.bool b) => b
  | _ => false

/-- `*fs.Int(name, ...)` after parsing. -/
def intFlag (flags : List Flag) (set : List (Bytes × FlagValue)) (name : Bytes) : Int :=
  match flagValue flags set name with
  | some (.int n) => n
  | _ => 0

/-- `*fs.String(name, ...)` after parsing. -/
def stringFlag (flags : List Flag) (set : List (Bytes × FlagValue)) (name : Bytes) : Bytes :=
  match flagValue flags set name with
  | some (.string s) => s
  | _ => []

/-! ## What `-name=value` parses back to -/

/-- The text of a value as a command line spells it: `strconv.FormatBool`,
`strconv.Itoa`, or the text itself. -/
def FlagValue.text : FlagValue → Bytes
  | .bool b => if b then ascii "true" else ascii "false"
  | .int n => formatInt n
  | .string s => s

/-- The argument `-name=value`. -/
def renderSetting (x : Bytes × FlagValue) : Bytes := ascii "-" ++ x.1 ++ ascii "=" ++ x.2.text

/-- Two values of one kind. -/
def FlagValue.SameKind : FlagValue → FlagValue → Prop
  | .bool _, .bool _ => True
  | .int _, .int _ => True
  | .string _, .string _ => True
  | _, _ => False

/-- A setting `parseOne` reads back from `-name=value`: a name that is not
empty, starts with neither `-` nor `=` and holds no `=`, of a defined flag, a
value of the flag's kind, an integer within 64 bits. -/
def Setting (flags : List Flag) (x : Bytes × FlagValue) : Prop :=
  x.1.head? ≠ none ∧ x.1.head? ≠ some 0x2D ∧ 0x3D ∉ x.1 ∧
    ∃ f, flags.find? (·.name = x.1) = some f ∧ f.default.SameKind x.2 ∧
      ∀ n, x.2 = .int n → -2 ^ 63 ≤ n ∧ n < 2 ^ 63

theorem digitValue_of_digit {c : UInt8} (h : 48 ≤ c.toNat ∧ c.toNat < 58) :
    digitValue c = some (c.toNat - 48) := by
  unfold digitValue
  rw [if_pos ⟨h.1, Nat.le_of_lt_succ h.2⟩]

theorem le_foldl_decimal : ∀ (ds : Bytes) (n : Nat),
    n ≤ ds.foldl (fun v b => 10 * v + (b.toNat - 48)) n
  | [], _ => le_rfl
  | c :: ds, n => by
    have := le_foldl_decimal ds (10 * n + (c.toNat - 48))
    rw [List.foldl_cons]
    omega

/-- The digit loop in base 10 over decimal digits that fit 64 bits. -/
theorem parseUintLoop_decimal : ∀ (ds : Bytes) (n : Nat),
    (∀ b ∈ ds, 48 ≤ b.toNat ∧ b.toNat < 58) →
    ds.foldl (fun v b => 10 * v + (b.toNat - 48)) n ≤ maxUint64 →
    parseUintLoop 10 ds n false = .ok (ds.foldl (fun v b => 10 * v + (b.toNat - 48)) n, false)
  | [], _, _, _ => rfl
  | c :: ds, n, hd, hle => by
    have hc := hd c (List.mem_cons_self c ds)
    have hmono := le_foldl_decimal ds (10 * n + (c.toNat - 48))
    rw [List.foldl_cons] at hle ⊢
    have hne : c ≠ 0x5F := fun e => by subst e; exact absurd hc (by decide)
    rw [parseUintLoop, if_neg hne, digitValue_of_digit hc]
    simp only [maxUint64] at hle ⊢
    rw [if_neg (by omega), if_neg (by omega), if_neg (by omega), Nat.mul_comm n 10]
    exact parseUintLoop_decimal ds _ (fun b hb => hd b (List.mem_cons_of_mem c hb)) hle

theorem formatUint_ne_nil (m : Nat) : formatUint m ≠ [] := by
  rw [formatUint_eq]
  split
  · exact List.cons_ne_nil _ _
  · simpa [Nat.digits_ne_nil_iff_ne_zero]

theorem head_formatUint {m : Nat} (hm : m ≠ 0) : (formatUint m).head? ≠ some 0x30 := by
  rw [formatUint_eq, if_neg hm, List.head?_reverse, List.getLast?_map,
    List.getLast?_eq_getLast _ (Nat.digits_ne_nil_iff_ne_zero.mpr hm)]
  rw [Option.map_some']
  intro h
  rw [Option.some.injEq] at h
  exact Nat.getLast_digit_ne_zero 10 hm (digitByte_injOn
    (Nat.digits_lt_base (by norm_num) (List.getLast_mem _)) (by norm_num) (h.trans rfl))

theorem basePrefix_decimal {s : Bytes} (h : s.head? ≠ some 0x30) : basePrefix s = (10, s) := by
  match s, h with
  | [], _ => rfl
  | [z], h => simp_all [basePrefix]
  | [z, c], h => simp_all [basePrefix]
  | z :: c :: d :: t, h => simp_all [basePrefix]

theorem parseUint_formatUint {m : Nat} (hm : m ≤ maxUint64) : parseUint (formatUint m) = .ok m := by
  by_cases h0 : m = 0
  · subst h0
    rfl
  unfold parseUint
  have hd := digitsValue_formatUint m
  unfold digitsValue at hd
  rw [if_neg (formatUint_ne_nil m), basePrefix_decimal (head_formatUint h0)]
  dsimp only
  rw [parseUintLoop_decimal _ 0 (fun b hb => mem_formatUint hb) (by rw [hd]; exact hm), hd]
  rfl

theorem parseInt_formatInt {n : Int} (hlo : -2 ^ 63 ≤ n) (hhi : n < 2 ^ 63) :
    parseInt (formatInt n) = .ok n := by
  have hne := formatUint_ne_nil n.natAbs
  obtain ⟨c, t, ht⟩ := List.exists_cons_of_ne_nil hne
  have hc := mem_formatUint (ht ▸ List.mem_cons_self c t : c ∈ formatUint n.natAbs)
  have hcp : c ≠ 0x2B := fun e => by subst e; exact absurd hc (by decide)
  have hcm : c ≠ 0x2D := fun e => by subst e; exact absurd hc (by decide)
  unfold parseInt formatInt
  by_cases hn : n < 0
  · have hm : ascii "-" ++ formatUint n.natAbs = 0x2D :: formatUint n.natAbs := rfl
    rw [if_pos hn, hm, if_neg (List.cons_ne_nil _ _)]
    dsimp only
    rw [if_neg (by decide), if_pos rfl]
    dsimp only
    rw [parseUint_formatUint (by simp only [maxUint64]; omega)]
    simp only [Bool.true_eq_false, false_and, if_false, true_and, if_true]
    rw [if_neg (by omega)]
    congr 1
    omega
  · rw [if_neg hn, if_neg hne, ht]
    dsimp only
    rw [if_neg hcp, if_neg hcm, ← ht, parseUint_formatUint (by simp only [maxUint64]; omega)]
    simp only [true_and, Bool.false_eq_true, false_and, if_false]
    rw [if_neg (by omega)]
    congr 1
    omega

theorem flagName_render {c : UInt8} {name t : Bytes} (hc : c ≠ 0x2D) (heq : 0x3D ∉ c :: name) :
    flagName (0x2D :: c :: (name ++ 0x3D :: t)) = (c :: name, some t) := by
  have hp : ∀ a ∈ c :: name, (a != 0x3D) = true := fun a ha =>
    bne_iff_ne.mpr fun e => heq (e ▸ ha)
  unfold flagName
  simp only [List.get?_cons_succ, List.get?_cons_zero, Option.some.injEq, hc, if_false,
    List.drop_one, List.tail_cons]
  rw [← List.cons_append, List.span_eq_take_drop, List.takeWhile_append_of_pos hp,
    List.dropWhile_append_of_pos hp, List.takeWhile_cons_of_neg (by simp),
    List.dropWhile_cons_of_neg (by simp), List.append_nil]

/-- `Value.Set` reads back the text of a value of the flag's kind. -/
theorem FlagValue.set_text {d v : FlagValue} (hk : d.SameKind v)
    (hr : ∀ n, v = .int n → -2 ^ 63 ≤ n ∧ n < 2 ^ 63) : d.set v.text = .ok v := by
  cases d <;> cases v <;> simp only [FlagValue.SameKind] at hk
  · next b => cases b <;> rfl
  · next n =>
    obtain ⟨hlo, hhi⟩ := hr n rfl
    simp only [FlagValue.set, FlagValue.text, parseInt_formatInt hlo hhi]
  · rfl

/-- The step lemma: one argument `-name=value` of a setting is read as that
setting. -/
theorem parseFlags_renderSetting {flags : List Flag} {x : Bytes × FlagValue}
    (hx : Setting flags x) (args : List Bytes) (set : List (Bytes × FlagValue)) :
    parseFlags flags (renderSetting x :: args) set = parseFlags flags args (set ++ [x]) := by
  rcases x with ⟨name, v⟩
  obtain ⟨hne, hdash, heq, ⟨fname, d⟩, hf, hk, hr⟩ := hx
  dsimp only at hne hdash heq hf hk hr
  obtain ⟨c, name, rfl⟩ : ∃ c t, name = c :: t :=
    List.exists_cons_of_ne_nil fun e => hne (by rw [e]; rfl)
  have hc : c ≠ 0x2D := fun e => hdash (by rw [e]; rfl)
  have hc' : c ≠ 0x3D := fun e => heq (e ▸ List.mem_cons_self c name)
  have hs : renderSetting (c :: name, v) = 0x2D :: c :: (name ++ 0x3D :: v.text) := by
    simp [renderSetting, show ascii "-" = [0x2D] from rfl, show ascii "=" = [0x3D] from rfl]
  have hlen : ¬((0x2D :: c :: (name ++ 0x3D :: v.text)).length < 2 ∨
      (0x2D :: c :: (name ++ 0x3D :: v.text)).head? ≠ some 0x2D) := by
    simp only [List.length_cons, List.head?_cons, ne_eq, not_true_eq_false, or_false]
    omega
  have hdd : (0x2D :: c :: (name ++ 0x3D :: v.text)) ≠ ascii "--" := fun e =>
    hc (List.head_eq_of_cons_eq (List.tail_eq_of_cons_eq e))
  have hone : parseOne flags (renderSetting (c :: name, v)) = .set (c :: name, v) := by
    rw [hs, parseOne, if_neg hlen, if_neg hdd]
    simp only [List.get?_cons_succ, List.get?_cons_zero, Option.some.injEq, hc, if_false,
      List.drop_one, List.tail_cons, List.head?_cons, hc', reduceCtorEq, or_self,
      flagName_render hc heq, hf]
    cases d <;> cases v <;> first
      | exact False.elim hk
      | simp [FlagValue.isBool, FlagValue.set_text hk hr]
  rw [parseFlags, hone]

/-- What `FlagSet.Parse` accepts is what a command line of settings says:
every setting of defined flags, written `-name=value` and followed by `--`
and any arguments at all, parses back to those settings, in order, after
those already made, and to exactly those arguments. -/
theorem parseFlags_render {flags : List Flag} : ∀ {settings : List (Bytes × FlagValue)},
    (∀ x ∈ settings, Setting flags x) → ∀ (positionals : List Bytes) (set : List (Bytes × FlagValue)),
    parseFlags flags (settings.map renderSetting ++ ascii "--" :: positionals) set =
      .ok (set ++ settings, positionals)
  | [], _, positionals, set => by
    rw [List.map_nil, List.nil_append, List.append_nil, parseFlags]
    rfl
  | x :: settings, hs, positionals, set => by
    rw [List.map_cons, List.cons_append,
      parseFlags_renderSetting (hs x (List.mem_cons_self x settings)),
      parseFlags_render (fun y hy => hs y (List.mem_cons_of_mem x hy)), List.append_assoc,
      List.singleton_append]

/-- The round trip at `-m=fix: a=b -last=3 -allow-dirty=true -- -x` against the
flags of `vcs squash`. -/
theorem parseFlags_render_squash :
    let flags : List Flag := [⟨ascii "last", .int 0⟩, ⟨ascii "from", .string []⟩,
      ⟨ascii "m", .string []⟩, ⟨ascii "allow-dirty", .bool false⟩]
    let settings : List (Bytes × FlagValue) := [(ascii "m", .string (ascii "fix: a=b")),
      (ascii "last", .int 3), (ascii "allow-dirty", .bool true)]
    (∀ x ∈ settings, Setting flags x) ∧
      parseFlags flags (settings.map renderSetting ++ ascii "--" :: [ascii "-x"]) [] =
        .ok ([] ++ settings, [ascii "-x"]) := by
  intro flags settings
  have hs : ∀ x ∈ settings, Setting flags x := by
    intro x hx
    simp only [settings, List.mem_cons, List.mem_singleton, List.not_mem_nil, or_false] at hx
    rcases hx with rfl | rfl | rfl
    · exact ⟨by decide, by decide, by decide, _, rfl, trivial, fun n h => by cases h⟩
    · exact ⟨by decide, by decide, by decide, _, rfl, trivial,
        fun n h => by cases h; norm_num⟩
    · exact ⟨by decide, by decide, by decide, _, rfl, trivial, fun n h => by cases h⟩
  exact ⟨hs, parseFlags_render hs _ _⟩

end Dqrvcs
