import WeirdVault.Framework.BigEndian

/-!
# Keys that are brought along

`importPrivateKey` (`keyparse.go`) and the signer that is made of a public key and a callback
(`signer.go`), over what they take from `crypto/x509` and `golang.org/x/crypto/ssh`.
-/

namespace WeirdVault.Ssh.Keys

open WeirdVault.Framework

abbrev Bytes := List UInt8

inductive Curve
  | p224
  | p256
  | p384
  | p521
  deriving DecidableEq

def Curve.name : Curve → String
  | p224 => "P-224"
  | p256 => "P-256"
  | p384 => "P-384"
  | p521 => "P-521"

def Curve.order : Curve → ℕ
  | p224 => 2^224-2^96+1
  | p256 => 2^256-2^224+2^192+2^96-1
  | p384 => 2^384-2^128-2^96+2^32-1
  | p521 => 2^521-1

inductive PublicKey
  | ed25519 (key : Bytes)
  | rsa (n e : ℕ)
  | ecdsa (curve : Curve) (x y : ℕ)
  | other (type : String)
  deriving DecidableEq

/-- The seed and then the public key. -/
structure Ed25519PrivateKey where
  bytes : Bytes
  length : bytes.length = 64

structure RsaPrivateKey where
  n : ℕ
  e : ℕ
  d : ℕ

structure EcdsaPrivateKey where
  curve : Curve
  x : ℕ
  y : ℕ
  d : ℕ

/-- What `ssh.ParseRawPrivateKey` returns: Ed25519 as a pointer or as a value, by the format of the
file. -/
inductive RawKey
  | ed25519Pointer (key : Ed25519PrivateKey)
  | ed25519 (key : Ed25519PrivateKey)
  | rsa (key : RsaPrivateKey)
  | ecdsa (key : EcdsaPrivateKey)
  | other (type : String)

def RawKey.Valid : RawKey → Prop
  | .ecdsa key => key.x < key.curve.order ∧ key.y < key.curve.order
  | _ => True

def Ed25519PrivateKey.publicKey (key : Ed25519PrivateKey) : PublicKey := .ed25519 (key.bytes.drop 32)

def RsaPrivateKey.publicKey (key : RsaPrivateKey) : PublicKey := .rsa key.n key.e

def EcdsaPrivateKey.publicKey (key : EcdsaPrivateKey) : PublicKey := .ecdsa key.curve key.x key.y

inductive Fault
  | passphraseMissing
  | incorrectPassword
  | library (message : String)
  /-- `fmt.Errorf`, with the numbers and the texts that are filled in. -/
  | errorf (format : String) (numbers : List ℕ) (texts : List String)
  | wrap (format : String) (texts : List String) (cause : Fault)
  deriving DecidableEq

/-- What `errors.As` and `errors.Is` look through to. -/
def Fault.root : Fault → Fault
  | .wrap _ _ cause => cause.root
  | fault => fault

/-- `K` are the keys of `ssh.PublicKey`. -/
structure Library (K : Type) where
  parseRawPrivateKey : Bytes → Except Fault RawKey
  parseRawPrivateKeyWithPassphrase : Bytes → Bytes → Except Fault RawKey
  marshalPKCS8PrivateKey : RawKey → Except Fault Bytes
  marshalPKIXPublicKey : ℕ → ℕ → Except Fault Bytes
  parsePKIXPublicKey : Bytes → Except Fault PublicKey
  newPublicKey : PublicKey → Except Fault K
  marshal : K → Bytes
  fingerprintSHA256 : K → String
  type : K → String
  marshalNumbers : ℕ → ℕ → Bytes

def KeyAlgoED25519 : String := "ssh-ed25519"

def KeyAlgoRSASHA256 : String := "rsa-sha2-256"

def KeyAlgoRSASHA512 : String := "rsa-sha2-512"

def KeyAlgoECDSA256 : String := "ecdsa-sha2-nistp256"

/-- What is parsed is a key, and what is marshalled is what the formats say. -/
structure Library.Correct {K : Type} (lib : Library K) : Prop where
  parsed : ∀ pem key, lib.parseRawPrivateKey pem = .ok key → key.Valid
  parsedWith : ∀ pem passphrase key,
    lib.parseRawPrivateKeyWithPassphrase pem passphrase = .ok key → key.Valid
  pkix : ∀ n e der, lib.marshalPKIXPublicKey n e = .ok der →
    lib.parsePKIXPublicKey der = .ok (.rsa n e)
  typed : ∀ x y key, lib.newPublicKey (.ecdsa .p256 x y) = .ok key → lib.type key = KeyAlgoECDSA256
  numbers : ∀ r s, lib.marshalNumbers r s = BigEndian.mpint r ++ BigEndian.mpint s

section

variable {K : Type} (lib : Library K)

structure ImportedKey where
  keyType : String
  pkcs8 : Bytes
  publicRaw : Bytes
  sshBlob : Bytes
  fingerprint : String
  bits : ℕ

def leftPad (b : Bytes) (size : ℕ) : Bytes :=
  if size ≤ b.length then b.drop (b.length-size) else List.replicate (size-b.length) 0 ++ b

def publicRaw : PublicKey → Except Fault Bytes
  | .ed25519 key => .ok key
  | .rsa n e => lib.marshalPKIXPublicKey n e
  | .ecdsa _ x y => .ok (4 :: (leftPad (BigEndian.toBytes x) 32 ++ leftPad (BigEndian.toBytes y) 32))
  | .other type => .error (.errorf "unsupported public key type %T" [] [type])

def buildImported (keyType : String) (priv : RawKey) (pub : PublicKey) (bits : ℕ) :
    Except Fault ImportedKey :=
  match lib.marshalPKCS8PrivateKey priv with
  | .error fault => .error (.wrap "could not convert the key for the browser: %w" [] fault)
  | .ok pkcs8 =>
    match lib.newPublicKey pub with
    | .error fault => .error (.wrap "could not derive the public key: %w" [] fault)
    | .ok sshPub =>
      match publicRaw lib pub with
      | .error fault => .error fault
      | .ok publicRaw => .ok
        { keyType, pkcs8, publicRaw, sshBlob := lib.marshal sshPub
          fingerprint := lib.fingerprintSHA256 sshPub, bits }

def readKey (pemBytes passphrase : Bytes) : Except Fault RawKey :=
  let couldNot (fault : Fault) : Fault := .wrap "could not read this key: %w" [] fault
  if passphrase = [] then
    match lib.parseRawPrivateKey pemBytes with
    | .error fault =>
      if fault.root = .passphraseMissing then
        .error (.errorf "this key is encrypted — a passphrase is required" [] [])
      else .error (couldNot fault)
    | .ok raw => .ok raw
  else
    match lib.parseRawPrivateKeyWithPassphrase pemBytes passphrase with
    | .error fault =>
      if fault.root = .incorrectPassword then .error (.errorf "wrong passphrase" [] [])
      else .error (couldNot fault)
    | .ok raw => .ok raw

/-- The switch over the type of the key. An Ed25519 key is marshalled as a value. -/
def importRaw : RawKey → Except Fault ImportedKey
  | .ed25519Pointer key => buildImported lib "ed25519" (.ed25519 key) key.publicKey 256
  | .ed25519 key => buildImported lib "ed25519" (.ed25519 key) key.publicKey 256
  | .rsa key =>
    if key.n.size < 2048 then
      .error (.errorf "RSA keys under 2048 bits are not accepted (this one is %d)" [key.n.size] [])
    else buildImported lib "rsa" (.rsa key) key.publicKey key.n.size
  | .ecdsa key =>
    if key.curve ≠ .p256 then
      .error (.errorf ("only the P-256 curve is supported for ECDSA (this key uses %s); " ++
        "WebCrypto cannot hold the others non-extractably here") [] [key.curve.name])
    else buildImported lib "ecdsa-p256" (.ecdsa key) key.publicKey 256
  | .other type => .error (.errorf "unsupported key type %T" [] [type])

def importPrivateKey (pemBytes passphrase : Bytes) : Except Fault ImportedKey :=
  match readKey lib pemBytes passphrase with
  | .error fault => .error fault
  | .ok raw => importRaw lib raw

/-- A value of JavaScript; a callback gets the data and the algorithm, and what it promises is the
signature or why there is none. -/
inductive JsValue
  | function (sign : Bytes → String → Except Fault Bytes)
  | other

structure WebCryptoSigner (K : Type) where
  pub : K
  signFn : Bytes → String → Except Fault Bytes

def parseRSASPKI (der : Bytes) : Except Fault K :=
  match lib.parsePKIXPublicKey der with
  | .error fault => .error (.wrap "parse SPKI: %w" [] fault)
  | .ok (.rsa n e) => lib.newPublicKey (.rsa n e)
  | .ok (.ed25519 _) => .error (.errorf "SPKI key is %T, not RSA" [] ["ed25519.PublicKey"])
  | .ok (.ecdsa ..) => .error (.errorf "SPKI key is %T, not RSA" [] ["*ecdsa.PublicKey"])
  | .ok (.other type) => .error (.errorf "SPKI key is %T, not RSA" [] [type])

def publicKeyOf (keyType : String) (rawPub : Bytes) : Except Fault K :=
  if keyType = "ed25519" then
    if rawPub.length ≠ 32 then
      .error (.errorf "ed25519 public key must be %d bytes, got %d" [32,rawPub.length] [])
    else lib.newPublicKey (.ed25519 rawPub)
  else if keyType = "ecdsa-p256" then
    if rawPub.length ≠ 65 ∨ rawPub.head? ≠ some 4 then
      .error (.errorf "expected a 65-byte uncompressed P-256 point, got %d bytes"
        [rawPub.length] [])
    else lib.newPublicKey (.ecdsa .p256 (BigEndian.value ((rawPub.drop 1).take 32))
      (BigEndian.value ((rawPub.drop 33).take 32)))
  else if keyType = "rsa" then parseRSASPKI lib rawPub
  else .error (.errorf "unsupported key type %q" [] [keyType])

def newWebCryptoSigner (keyType : String) (rawPub : Bytes) :
    JsValue → Except Fault (WebCryptoSigner K)
  | .other => .error (.errorf "sign callback must be a function" [] [])
  | .function signFn =>
    match publicKeyOf lib keyType rawPub with
    | .error fault => .error fault
    | .ok pub => .ok ⟨pub,signFn⟩

structure Signature where
  format : String
  blob : Bytes
  deriving DecidableEq

/-- What WebCrypto returns is packed as the algorithm wants it. -/
def pack (algorithm : String) (sig : Bytes) : Except Fault Signature :=
  if sig.length = 0 then .error (.errorf "webcrypto returned an empty signature" [] [])
  else if algorithm = KeyAlgoED25519 then
    if sig.length ≠ 64 then
      .error (.errorf "ed25519 signature must be %d bytes, got %d" [64,sig.length] [])
    else .ok ⟨KeyAlgoED25519,sig⟩
  else if algorithm = KeyAlgoRSASHA256 ∨ algorithm = KeyAlgoRSASHA512 then .ok ⟨algorithm,sig⟩
  else if algorithm = KeyAlgoECDSA256 then
    if sig.length % 2 ≠ 0 then
      .error (.errorf "ecdsa signature length %d is not even" [sig.length] [])
    else .ok ⟨algorithm,lib.marshalNumbers (BigEndian.value (sig.take (sig.length/2)))
      (BigEndian.value (sig.drop (sig.length/2)))⟩
  else .error (.errorf "unsupported signature algorithm %q" [] [algorithm])

def signWithAlgorithm (signer : WebCryptoSigner K) (data : Bytes) (algorithm : String) :
    Except Fault Signature :=
  let algorithm := if algorithm = "" then lib.type signer.pub else algorithm
  match signer.signFn data algorithm with
  | .error fault => .error (.wrap "webcrypto sign (%s): %w" [algorithm] fault)
  | .ok sig => pack lib algorithm sig

def sign (signer : WebCryptoSigner K) (data : Bytes) : Except Fault Signature :=
  signWithAlgorithm lib signer data (lib.type signer.pub)

end

end WeirdVault.Ssh.Keys
