import Valgen.Json.Printer
import Valgen.Name
import Valgen.Options
import Valgen.Text.CallChain
import Valgen.Text.Lines
import Valgen.Validator.Basic
/-!
# Validator.Render — validators as source text

A validator is written as a chain of calls: its base, its refinements in the order in which they were applied, then its
markers in the order the dialect fixes (`Dialect.slots`).  Only object shapes span several lines; their members stand
one level deeper than the shape.
-/
namespace Valgen

/-- **How validators are written**: for which version, and with descriptions as comments or not. -/
structure Style where
  dialect : Dialect
  jsdocs : Bool := false
deriving DecidableEq, Repr

/-- **The order in which modifiers are written.** -/
def Dialect.slots : Dialect → List Slot
  | .v3 => [.refinement, .nullable, .describe, .brand, .default, .readonly, .optional]
  | .v4 => [.refinement, .nullable, .optional, .default, .brand, .readonly, .describe]

namespace Render

def braced (s : String) : String := "\x7b " ++ s ++ " \x7d"

def literal : Json → String
  | .string s => Text.quote s
  | value => value.compact

/-- **A message as an argument**: a string, or an object with an `error`. -/
def message (dialect : Dialect) (s : String) : String :=
  match dialect with
  | .v3 => Text.quote s
  | .v4 => braced ("error: " ++ Text.quote s)

/-- **An argument and the message behind it**, if there is one. -/
def withMessage (dialect : Dialect) (arg : String) (text : Option String) : List String :=
  arg :: (text.map (message dialect)).toList

/-! ## Strings and numbers -/

/-- **The method of a format** in the older version. -/
def formatMethod : StringFormat → String
  | .email => "email"
  | .uuid => "uuid"
  | .url => "url"
  | .dateTime => "datetime"
  | .date => "date"
  | .time => "time"
  | .ipv4 => "ip"
  | .ipv6 => "ip"
  | .duration => "duration"
  | .base64 => "base64"

/-- **The option the method of a format takes** in the older version. -/
def formatOption : StringFormat → Option String
  | .dateTime => some "offset: true"
  | .ipv4 => some "version: \"v4\""
  | .ipv6 => some "version: \"v6\""
  | _ => none

/-- **The function of a format** in the newer version. -/
def formatFunction : StringFormat → String
  | .email => "z.email"
  | .uuid => "z.uuid"
  | .url => "z.url"
  | .dateTime => "z.iso.datetime"
  | .date => "z.iso.date"
  | .time => "z.iso.time"
  | .ipv4 => "z.ipv4"
  | .ipv6 => "z.ipv6"
  | .duration => "z.iso.duration"
  | .base64 => "z.base64"

def stringOfFormat (dialect : Dialect) (format : StringFormat) (text : Option String) : CallChain :=
  match dialect with
  | .v3 =>
    let quoted := text.map Text.quote
    let args := match formatOption format with
      | some option => [braced (option ++ quoted.elim "" (fun m => ", message: " ++ m))]
      | none => quoted.toList
    (CallChain.ofFunction "z.string" []).add ⟨formatMethod format, args⟩
  | .v4 =>
    let args := match format with
      | .dateTime => [braced ("offset: true" ++ text.elim "" (fun m => ", error: " ++ Text.quote m))]
      | _ => (text.map (message .v4)).toList
    CallChain.ofFunction (formatFunction format) args

def number (dialect : Dialect) (integer : Bool) (text : Option String) : CallChain :=
  let args := (text.map (message dialect)).toList
  match dialect, integer with
  | .v4, true => CallChain.ofFunction "z.int" args
  | .v3, true => (CallChain.ofFunction "z.number" []).add ⟨"int", args⟩
  | _, false => CallChain.ofFunction "z.number" []

def check : Check → String × String
  | .min count => ("min", toString count)
  | .max count => ("max", toString count)
  | .regex source => ("regex", "new RegExp(" ++ Text.quote source ++ ")")
  | .multipleOf factor => ("multipleOf", factor.text)
  | .gte bound => ("gte", bound.text)
  | .gt bound => ("gt", bound.text)
  | .lte bound => ("lte", bound.text)
  | .lt bound => ("lt", bound.text)

def checked (dialect : Dialect) (chain : CallChain) (checks : List Constraint) : CallChain :=
  checks.foldl (fun chain c => chain.add ⟨(check c.check).1, withMessage dialect (check c.check).2 c.message⟩) chain

/-! ## Lists, shapes and unions -/

def list (items : List String) : String := "[" ++ ", ".intercalate items ++ "]"

/-- **A text that does not end a block comment.** -/
def uncommented : List Char → List Char
  | [] => []
  | '*' :: '/' :: rest => '*' :: '\\' :: '/' :: uncommented rest
  | c :: rest => c :: uncommented rest

/-- **The comment above a member**, if comments are wanted. -/
def comment (jsdocs : Bool) (depth : Nat) (description : Option String) : List String :=
  match jsdocs, description with
  | true, some text => [Text.indent depth ++ "/** " ++ String.ofList (uncommented text.toList) ++ " */"]
  | _, _ => []

/-- **A key of a shape**: bare if it is an identifier. -/
def key (s : String) : String := if Name.isIdentifier s then s else Text.quote s

/-- **The lines of the members**, with a comma behind each but the last. -/
def memberLines : List (List String × String) → List String
  | [] => []
  | [(above, line)] => above ++ [line]
  | (above, line) :: rest => above ++ (line ++ ",") :: memberLines rest

/-- **A shape** whose members stand at `depth + 1`. -/
def shape (depth : Nat) (members : List (List String × String)) : String :=
  if members.isEmpty then "\x7b\x7d"
  else "\n".intercalate ("\x7b" :: (memberLines members ++ [Text.indent depth ++ "\x7d"]))

/-- **The function that demands exactly one match** among the members of a list. -/
def exactlyOne (members : String) : String :=
  "(value, ctx) => \x7b const matches = " ++ members ++
    ".filter((schema) => schema.safeParse(value).success).length; if (matches !== 1) \x7b ctx.addIssue(\x7b " ++
    "code: \"custom\", message: " ++ Text.quote "Invalid input: Should pass exactly one schema" ++
    " \x7d); \x7d \x7d"

/-- **The calls in the order the dialect fixes.** -/
def arrange (dialect : Dialect) (calls : List (Slot × Call)) : List Call :=
  dialect.slots.flatMap (fun slot => (calls.filter (fun c => c.1 == slot)).map Prod.snd)

mutual

def validator (style : Style) (depth : Nat) : Validator → String
  | ⟨b, modifiers⟩ =>
    ((arrange style.dialect (modifierCalls style depth modifiers)).foldl CallChain.add (base style depth b)).build

def base (style : Style) (depth : Nat) : Base → CallChain
  | .any => CallChain.ofFunction "z.any" []
  | .unknown => CallChain.ofFunction "z.unknown" []
  | .never => CallChain.ofFunction "z.never" []
  | .boolean => CallChain.ofFunction "z.boolean" []
  | .null => CallChain.ofFunction "z.null" []
  | .string format formatMessage checks =>
    let start := match format with
      | some f => stringOfFormat style.dialect f formatMessage
      | none => CallChain.ofFunction "z.string" []
    checked style.dialect start checks
  | .number integer integerMessage checks => checked style.dialect (number style.dialect integer integerMessage) checks
  | .literal value => CallChain.ofFunction "z.literal" [literal value]
  | .enum values => CallChain.ofFunction "z.enum" [list (values.map Text.quote)]
  | .object properties rest =>
    let start := CallChain.ofFunction "z.object" [shape depth (members style (depth + 1) properties)]
    (unlisted style depth rest).toList.foldl CallChain.add start
  | .array items checks =>
    checked style.dialect (CallChain.ofFunction "z.array" [validator style depth items]) checks
  | .tuple items rest =>
    (CallChain.ofFunction "z.tuple" [list (validators style depth items)]).add? "rest" (validator? style depth rest)
  | .record values => CallChain.ofFunction "z.record" ["z.string()", validator style depth values]
  | .union items => CallChain.ofFunction "z.union" [list (validators style depth items)]
  | .xor items =>
    let text := list (validators style depth items)
    (CallChain.ofFunction "z.union" [text]).add ⟨"superRefine", [exactlyOne text]⟩
  | .intersection left right =>
    CallChain.ofFunction "z.intersection" [validator style depth left, validator style depth right]
  | .reference expression true => CallChain.ofFunction "z.lazy" ["() => " ++ expression]
  | .reference expression false => CallChain.ofExpression expression
  | .custom text => CallChain.ofExpression (Text.reindent text depth)

/-- **The calls of modifiers**, each with its kind. -/
def modifierCalls (style : Style) (depth : Nat) : List Modifier → List (Slot × Call)
  | [] => []
  | m :: rest => (m.slot, modifierCall style depth m) :: modifierCalls style depth rest

def modifierCall (style : Style) (depth : Nat) : Modifier → Call
  | .optional => ⟨"optional", []⟩
  | .nullable => ⟨"nullable", []⟩
  | .readonly => ⟨"readonly", []⟩
  | .default value => ⟨"default", [literal value]⟩
  | .describe text => ⟨"describe", [Text.quote text]⟩
  | .brand name => ⟨"brand<" ++ Text.quote name ++ ">", []⟩
  | .refine predicate text => ⟨"refine", withMessage style.dialect (Text.reindent predicate depth) text⟩
  | .superRefine body => ⟨"superRefine", [Text.reindent body depth]⟩
  | .pipe target => ⟨"pipe", [validator style depth target]⟩

/-- **The members of a shape**, each with the comment above it. -/
def members (style : Style) (depth : Nat) : List Property → List (List String × String)
  | [] => []
  | ⟨name, value, description⟩ :: rest =>
    (comment style.jsdocs depth description, Text.indent depth ++ key name ++ ": " ++ validator style depth value) ::
      members style depth rest

/-- **The call that settles unlisted keys**, if one is needed. -/
def unlisted (style : Style) (depth : Nat) : Unlisted → Option Call
  | .strip => none
  | .strict => some ⟨"strict", []⟩
  | .passthrough =>
    match style.dialect with
    | .v3 => some ⟨"passthrough", []⟩
    | .v4 => some ⟨"loose", []⟩
  | .catchall values => some ⟨"catchall", [validator style depth values]⟩

def validators (style : Style) (depth : Nat) : List Validator → List String
  | [] => []
  | v :: rest => validator style depth v :: validators style depth rest

def validator? (style : Style) (depth : Nat) : Option Validator → Option String
  | none => none
  | some v => some (validator style depth v)

end

end Render

def Validator.render (v : Validator) (style : Style) : String := Render.validator style 0 v

end Valgen
