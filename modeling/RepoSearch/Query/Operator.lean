/-!
# Operators of the query language

An operator is a word that begins with a marker; what follows the marker is its value. The markers are tried in a fixed
order with the longer one first where one begins another, and the first that fits decides.
-/

namespace RepoSearch

/-- What an operator selects. -/
inductive Operator where
  | owner | language | label | stars | forks | updated | topic
  deriving DecidableEq, Repr

/-- How many times an operator has an effect in one query. -/
inductive Cardinality where
  | atMostOne | many
  deriving DecidableEq, Repr

namespace Cardinality

def name : Cardinality → String
  | atMostOne => "at_most_one"
  | many => "many"

end Cardinality

namespace Operator

/-- All operators, in the order in which their markers are tried. -/
def all : List Operator := [owner, language, label, stars, forks, updated, topic]

def name : Operator → String
  | owner => "owner"
  | language => "language"
  | label => "label"
  | stars => "stars"
  | forks => "forks"
  | updated => "updated"
  | topic => "topic"

/-- The characters that an operator begins with. -/
def marker : Operator → String
  | owner => "@/"
  | language => "@"
  | label => "#"
  | stars => ">"
  | forks => "^"
  | updated => "~"
  | topic => "+"

/-- The name of the search qualifier that an operator stands for. -/
def qualifier : Operator → String
  | owner => "user"
  | language => "language"
  | label => "label"
  | stars => "stars"
  | forks => "forks"
  | updated => "pushed"
  | topic => "topic"

def cardinality : Operator → Cardinality
  | label | topic => .many
  | _ => .atMostOne

def description : Operator → String
  | owner => "Only repositories owned by this user or organization"
  | language => "Primary language of the repository"
  | label => "Repositories with open issues carrying this label"
  | stars => "Minimum star count; range syntax is passed through"
  | forks => "Minimum fork count; range syntax is passed through"
  | updated => "Last push date, e.g. >2024-01-01"
  | topic => "Repository topic"

/-- A word that shows the operator in use. -/
def sample : Operator → String
  | owner => "@/rust-lang"
  | language => "@rust"
  | label => "#good-first-issue"
  | stars => ">1000"
  | forks => "^50..100"
  | updated => "~>2024-01-01"
  | topic => "+cli"

/-- The word begins with the operator's marker. -/
def marks (op : Operator) (word : String) : Bool :=
  op.marker.toList.isPrefixOf word.toList

/-- The operator of a word and its value. Only the first marker that fits counts: a word that is nothing but that marker
has no operator. -/
def classify? (word : String) : Option (Operator × String) :=
  (all.find? (·.marks word)).bind fun op =>
    match word.toList.drop op.marker.length with
    | [] => none
    | value => some (op, String.ofList value)

end Operator

end RepoSearch
