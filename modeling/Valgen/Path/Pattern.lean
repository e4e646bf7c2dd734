import Valgen.Assoc
import Valgen.Path
import Valgen.Text.Split
/-!
# Path.Pattern — patterns over paths

A pattern is a list of pieces: a literal takes one step with that text, `*` takes any one step, `**` takes any number
of steps.  In the text of a pattern the pieces stand behind points, and `..` abbreviates `.**.`.

A `PatternCache` remembers the patterns it was asked for; what it answers is what the pattern itself answers
(`PatternCache.ask_fst`).
-/
namespace Valgen

inductive Piece where
  | literal (text : String)
  | one
  | many
deriving DecidableEq, Repr

abbrev Pattern : Type := List Piece

namespace Pattern

def expandDots : List Char → List Char
  | [] => []
  | '.' :: '.' :: rest => '.' :: '*' :: '*' :: '.' :: expandDots rest
  | c :: rest => c :: expandDots rest

def pieceOf (cs : List Char) : Piece :=
  if cs = ['*'] then .one else if cs = ['*', '*'] then .many else .literal (String.ofList cs)

def dropRoot : List Char → List Char
  | '$' :: rest => rest
  | cs => cs

/-- **The pattern a text stands for.**  Empty pieces do not count. -/
def parse (text : String) : Pattern :=
  ((Text.splitAt '.' (expandDots (dropRoot text.toList))).filter (fun piece => !piece.isEmpty)).map pieceOf

def matchesPath : Pattern → Path → Bool
  | [], path => path.isEmpty
  | .literal text :: rest, path =>
    match path with
    | [] => false
    | step :: tail => step.text == text && matchesPath rest tail
  | .one :: rest, path =>
    match path with
    | [] => false
    | _ :: tail => matchesPath rest tail
  | .many :: rest, path => (List.range (path.length + 1)).any (fun n => matchesPath rest (path.drop n))

end Pattern

/-- **The patterns asked for so far**, each under its text. -/
structure PatternCache where
  entries : Assoc Pattern
  sound : ∀ e ∈ entries, e.2 = Pattern.parse e.1

namespace PatternCache

def empty : PatternCache := ⟨[], by simp⟩

def size (cache : PatternCache) : Nat := cache.entries.length

/-- **The pattern of a text**, and the cache that remembers it. -/
def get (cache : PatternCache) (text : String) : Pattern × PatternCache :=
  match cache.entries.get? text with
  | some pattern => (pattern, cache)
  | none =>
    (Pattern.parse text,
      ⟨cache.entries ++ [(text, Pattern.parse text)], by
        intro e he
        rcases List.mem_append.1 he with he | he
        · exact cache.sound e he
        · rw [List.mem_singleton.1 he]⟩)

/-- **Whether the pattern of a text takes a path**, and the cache that remembers the pattern. -/
def ask (cache : PatternCache) (text : String) (path : Path) : Bool × PatternCache :=
  ((cache.get text).1.matchesPath path, (cache.get text).2)

def clear (_ : PatternCache) : PatternCache := empty

theorem get_fst (cache : PatternCache) (text : String) : (cache.get text).1 = Pattern.parse text := by
  unfold get
  split
  · rename_i pattern h
    simp only [Assoc.get?, Option.map_eq_some_iff] at h
    obtain ⟨e, he, rfl⟩ := h
    have hkey := List.find?_some he
    simp only [beq_iff_eq] at hkey
    rw [cache.sound e (List.mem_of_find?_eq_some he), hkey]
  · rfl

/-- **A cache answers as the pattern does**, whatever it was asked before. -/
theorem ask_fst (cache : PatternCache) (text : String) (path : Path) :
    (cache.ask text path).1 = (Pattern.parse text).matchesPath path := by
  rw [ask, get_fst]

end PatternCache
end Valgen
