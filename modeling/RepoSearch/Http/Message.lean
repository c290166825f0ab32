import RepoSearch.Http.Address
import RepoSearch.Http.Header
import RepoSearch.Json.Printer
import RepoSearch.Text.Decimal

/-!
# HTTP requests and responses

A request's target is cut into a path and a query. The body of a response is a JSON text or nothing.
-/

namespace RepoSearch.Http

/-- A request. -/
structure Request where
  /-- The one to whom the response goes. -/
  caller : String
  method : String
  target : String
  client : Address
  headers : List Header
  deriving Repr

/-- A response. -/
structure Response where
  status : Nat
  headers : List (String × String)
  body : String
  deriving DecidableEq, Repr

namespace Request

/-- The target without what follows a number sign. -/
def address (r : Request) : List Char :=
  r.target.toList.takeWhile (· ≠ '#')

/-- The part of the target before the question mark. -/
def path (r : Request) : String :=
  String.ofList (r.address.takeWhile (· ≠ '?'))

/-- The part of the target after the question mark. -/
def query (r : Request) : String :=
  String.ofList ((r.address.dropWhile (· ≠ '?')).drop 1)

end Request

namespace Response

/-- A response without a body. -/
def bare (status : Nat) (headers : List (String × String)) : Response :=
  ⟨status, headers, ""⟩

/-- A response with a JSON body. -/
def json (status : Nat) (headers : List (String × String)) (body : Json) : Response :=
  let text := body.render
  let described :=
    [("content-type", "application/json"), ("content-length", Decimal.render text.utf8ByteSize)]
  ⟨status, described ++ headers, text⟩

/-- The response without its body, as it is sent for a request of the header alone. -/
def withoutBody (r : Response) : Response :=
  { r with body := "" }

def withHeaders (r : Response) (headers : List (String × String)) : Response :=
  { r with headers := r.headers ++ headers }

end Response

end RepoSearch.Http
