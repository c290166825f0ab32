import RepoSearch.Text.Blank

/-!
# Programming languages

The languages that a search can be narrowed to by the `language` parameter.
-/

namespace RepoSearch

/-- A language known to the service. -/
inductive Language where
  | javaScript | typeScript | python | java | go | rust | c | cpp | cSharp | ruby
  | php | swift | kotlin | scala | shell | html | css | dart | elixir | haskell
  deriving DecidableEq, Repr

namespace Language

/-- All languages, in the order in which they are listed to users. -/
def all : List Language :=
  [javaScript, typeScript, python, java, go, rust, c, cpp, cSharp, ruby,
    php, swift, kotlin, scala, shell, html, css, dart, elixir, haskell]

/-- The name by which GitHub knows the language. -/
def name : Language → String
  | javaScript => "javascript"
  | typeScript => "typescript"
  | python => "python"
  | java => "java"
  | go => "go"
  | rust => "rust"
  | c => "c"
  | cpp => "cpp"
  | cSharp => "csharp"
  | ruby => "ruby"
  | php => "php"
  | swift => "swift"
  | kotlin => "kotlin"
  | scala => "scala"
  | shell => "shell"
  | html => "html"
  | css => "css"
  | dart => "dart"
  | elixir => "elixir"
  | haskell => "haskell"

/-- The language of exactly this name. -/
def ofName? (s : String) : Option Language :=
  all.find? (·.name == s)

/-- A text with its ASCII letters in lower case. -/
def lowerAscii (s : String) : String :=
  String.ofList (s.toList.map Char.toLower)

/-- Reads a language as users write it: blanks around the name and the case of ASCII letters do not matter. -/
def read? (s : String) : Option Language :=
  ofName? (lowerAscii (Text.trim s))

end Language

end RepoSearch
