import WeirdVault.Framework.UrlPath
import WeirdVault.Storage.SigV4

/-!
# Requests to a bucket

The address that is fetched, and what is signed for it.
-/

namespace WeirdVault.Storage

open WeirdVault.Framework

/-- A name that a bucket can have: at least three small letters, digits, hyphens and dots. -/
structure Bucket where
  name : Text
  length : 3 ≤ name.length
  plain : ∀ c ∈ name, c.isLower || c.isDigit || c = '-' || c = '.'

structure ObjectStore where
  endpoint : Url.Origin
  bucket : Bucket

def parameter (e : Text × Text) : Text :=
  Url.encodeURIComponent e.1 ++ '=' :: Url.encodeURIComponent e.2

def urlFor (store : ObjectStore) (key : Text) (query : Option Entries) : Text × Text :=
  let path := '/' :: store.bucket.name ++ encodePath key
  let search := match query with
    | none => []
    | some query => '?' :: ['&'].intercalate (query.list.map parameter)
  (store.endpoint.text ++ path ++ search,path)

/-- What `fetch` is called with, and what was signed before. -/
structure Sent where
  url : Text
  signed : SignableRequest

structure SendOptions where
  query : Option Entries
  body : List UInt8
  contentType : Option Text

def send (store : ObjectStore) (method key : Text) (options : SendOptions)
    (amzDate payloadHash : Text) : Sent :=
  let (url,path) := urlFor store key options.query
  let contentType := match options.contentType with
    | some value => if value = [] then [] else [("content-type".toList,value)]
    | none => []
  let contentLength := if options.body = [] then []
    else [("content-length".toList,(toString options.body.length).toList)]
  let headers := ("host".toList,store.endpoint.host) :: contentType ++ contentLength
  { url
    signed := {
      method,path
      query := options.query
      headers := headers ++ [("x-amz-date".toList,amzDate),
        ("x-amz-content-sha256".toList,payloadHash)]
      body := options.body } }

end WeirdVault.Storage
