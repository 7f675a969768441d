import TerraformDocs.Registry.Cache
import TerraformDocs.Registry.Response
import TerraformDocs.Version.Strategy

/-!
# Asking a registry

A registry is asked over the network for the newest version of a provider.  A network is given by
what happens to a request for each URL.  No failure on the way is an error: it only means that the
newest version is not known.
-/

namespace TerraformDocs.Registry

inductive Reply where
  | unreachable  -- before a request is made
  | dropped
  | answered (status : Nat) (body : List UInt8)
deriving DecidableEq, Repr

abbrev Network := String → Reply

def disconnected : Network := fun _ => .unreachable

def userAgent : String := "tfdoc/0.1.0"

def providerUrl (base : String) (provider : ProviderSource) : String :=
  Text.withoutTrailing '/' base ++ "/v1/providers/" ++ provider.publisher ++ "/" ++ provider.name

def requestLine (url : String) : String := "GET " ++ url ++ " " ++ userAgent

def Reply.version? : Reply → Option String
  | answered status body =>
    if 200 ≤ status ∧ status < 300 then publishedVersion? body else none
  | unreachable | dropped => none

/-- The registry at `base` as a version source; its state is the list of requests made. -/
def source (network : Network) (base : String) : VersionSource (List String) :=
  fun provider requests =>
    let url := providerUrl base provider
    match network url with
    | .unreachable => (none, requests)
    | reply => (reply.version?, requests ++ [requestLine url])

end TerraformDocs.Registry
