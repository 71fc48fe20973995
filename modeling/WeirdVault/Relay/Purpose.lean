import WeirdVault.Relay.Token

/-! # A token has one purpose -/

namespace WeirdVault.Relay.Token

open WeirdVault.Framework

inductive Purpose
  | address (host : String) (port : UInt16)
  | agent (id : String)
  | presence
  deriving DecidableEq

def check (L : Library) (secret : List UInt8) (token : String) :
    Purpose → UInt64 → Except TokenError Claims
  | .address host port, now => verify L secret token host port now
  | .agent id, now => verifyAgent L secret token id now
  | .presence, now => verifyPresence L secret token now

def Claims.For (c : Claims) : Purpose → Prop
  | .address host port => c.agent = none ∧ c.scope = none ∧ c.host = host ∧ c.port = port
  | .agent id => c.agent = some id ∧ c.scope = none
  | .presence => c.scope = some scopePresence

variable {L : Library} {secret : List UInt8} {token : String} {now : UInt64} {c : Claims}

theorem check_ok {p : Purpose} :
    check L secret token p now = .ok c ↔ decode L secret token now = .ok c ∧ c.For p := by
  cases p with
  | address host port =>
    simp only [check,verify,Claims.For]
    cases hd : decode L secret token now with
    | error e => simp
    | ok d =>
      dsimp only
      constructor
      · intro h
        split at h
        · simp at h
        · next hagent =>
          split at h
          · simp at h
          · next hscope =>
            split at h
            · simp at h
            · next hdest =>
              obtain rfl : d = c := by simpa using h
              have ha : d.agent = none := by simpa using hagent
              have hs : d.scope = none := by simpa using hscope
              have hh : d.host = host ∧ d.port = port := by simpa [not_or] using hdest
              exact ⟨rfl,ha,hs,hh⟩
      · rintro ⟨h,ha,hs,hh,hp⟩
        obtain rfl : d = c := by simpa using h
        simp [ha,hs,hh,hp]
  | agent id =>
    simp only [check,verifyAgent,Claims.For]
    cases hd : decode L secret token now with
    | error e => simp
    | ok d =>
      dsimp only
      constructor
      · intro h
        split at h
        · simp at h
        · next hscope =>
          split at h
          · simp at h
          · next want hagent =>
            split at h
            · simp at h
            · next hid =>
              obtain rfl : d = c := by simpa using h
              have hs : d.scope = none := by simpa using hscope
              have hi : want = id := by simpa using hid
              exact ⟨rfl,hi ▸ hagent,hs⟩
      · rintro ⟨h,ha,hs⟩
        obtain rfl : d = c := by simpa using h
        simp [ha,hs]
  | presence =>
    simp only [check,verifyPresence,Claims.For]
    cases hd : decode L secret token now with
    | error e => simp
    | ok d =>
      dsimp only
      constructor
      · intro h
        split at h
        · next hscope =>
          obtain rfl : d = c := by simpa using h
          exact ⟨rfl,hscope⟩
        · simp at h
      · rintro ⟨h,hs⟩
        obtain rfl : d = c := by simpa using h
        simp [hs]

theorem Claims.For.unique {p q : Purpose} (hp : c.For p) (hq : c.For q) : p = q := by
  cases p <;> cases q <;> simp_all [Claims.For]

theorem decode_ok : decode L secret token now = .ok c ↔
    ∃ payload signature v, splitOnce '.' token.toList = some (payload,signature) ∧
      Base64.urlSafe.decode signature = some (L.hmac secret (utf8 (String.ofList payload))) ∧
      (Base64.urlSafe.decode payload).bind L.fromSlice = some v ∧
      Claims.deserialize v = some c ∧ now < c.exp := by
  unfold decode
  constructor
  · intro h
    split at h
    · simp at h
    · next payload signature hsplit =>
      dsimp only at h
      split at h
      · simp at h
      · next provided hsig =>
        split at h
        · simp at h
        · next hmac =>
          split at h
          · simp at h
          · next v hv =>
            split at h
            · simp at h
            · next claims hclaims =>
              split at h
              · simp at h
              · next hexp =>
                obtain rfl : claims = c := by simpa using h
                have hsame := not_not.mp hmac
                rw [← hsame] at hsig
                exact ⟨payload,signature,v,hsplit,hsig,hv,hclaims,UInt64.not_le.mp hexp⟩
  · rintro ⟨payload,signature,v,hsplit,hsig,hv,hclaims,hexp⟩
    simp [hsplit,hsig,hv,hclaims,UInt64.not_le.mpr hexp]

theorem check_unique {p q : Purpose} {later : UInt64} {d : Claims}
    (hp : check L secret token p now = .ok c) (hq : check L secret token q later = .ok d) :
    p = q ∧ c = d ∧ now < c.exp := by
  obtain ⟨hc,hcp⟩ := check_ok.mp hp
  obtain ⟨hd,hdq⟩ := check_ok.mp hq
  obtain ⟨payload,signature,v,hsplit,_,hv,hclaims,hexp⟩ := decode_ok.mp hc
  obtain ⟨payload',signature',w,hsplit',_,hw,hclaims',_⟩ := decode_ok.mp hd
  rw [hsplit] at hsplit'
  obtain ⟨rfl,rfl⟩ := Prod.mk.inj (Option.some.inj hsplit')
  rw [hv] at hw
  obtain rfl := Option.some.inj hw
  rw [hclaims] at hclaims'
  obtain rfl := Option.some.inj hclaims'
  exact ⟨hcp.unique hdq,rfl,hexp⟩

theorem splitOnce_append {x : Char} {as : List Char} (h : ∀ a ∈ as, a ≠ x) (bs : List Char) :
    splitOnce x (as ++ x :: bs) = some (as,bs) := by
  induction as with
  | nil => simp [splitOnce]
  | cons a as ih =>
    have ha : a ≠ x := h a (by simp)
    have has := ih (fun b hb => h b (by simp [hb]))
    simp [splitOnce,ha,has]

private theorem splitOnce_signed (L : Library) (key : String) (v : Json) :
    splitOnce '.' (signed L key v).toList =
      some (Base64.urlSafe.encode (utf8 (L.stringify v)),
        Base64.urlSafe.encode (L.hmac (utf8 key)
          (utf8 (String.ofList (Base64.urlSafe.encode (utf8 (L.stringify v))))))) := by
  have hdot : ∀ x ∈ Base64.urlSafe.encode (utf8 (L.stringify v)), x ≠ '.' := by
    rintro x hx rfl
    rcases Base64.urlSafe.mem_encode hx with hx | hx
    · exact absurd hx (by decide +kernel)
    · exact absurd hx (by decide)
  simp only [signed,String.toList_append,String.toList_ofList]
  rw [List.append_assoc]
  exact splitOnce_append hdot _

theorem decode_signed {key : String} {v : Json} (hreads : L.Reads v) {claims : Claims}
    (hclaims : Claims.deserialize v = some claims) :
    decode L (utf8 key) (signed L key v) now = .ok c ↔ c = claims ∧ now < claims.exp := by
  have hround := Base64.urlSafe.decode_encode rfl
  rw [decode_ok]
  constructor
  · rintro ⟨payload,signature,w,hsplit,_,hw,hc,hexp⟩
    rw [splitOnce_signed] at hsplit
    obtain ⟨rfl,rfl⟩ := Prod.mk.inj (Option.some.inj hsplit)
    rw [hround,Option.bind_some,hreads] at hw
    obtain rfl := Option.some.inj hw
    rw [hclaims] at hc
    obtain rfl := Option.some.inj hc
    exact ⟨rfl,hexp⟩
  · rintro ⟨rfl,hexp⟩
    refine ⟨_,_,v,splitOnce_signed L key v,hround _,?_,hclaims,hexp⟩
    rw [hround,Option.bind_some]
    exact hreads

structure Grant where
  sub : String
  purpose : Purpose
  ref : Option String
  exp : UInt64

def Grant.claims (g : Grant) : Claims :=
  match g.purpose with
  | .address host port => ⟨g.sub,host,port,none,none,g.ref,g.exp⟩
  | .agent id => ⟨g.sub,"",0,some id,none,g.ref,g.exp⟩
  | .presence => ⟨g.sub,"",0,none,some scopePresence,g.ref,g.exp⟩

theorem Grant.claims_for (g : Grant) : g.claims.For g.purpose := by
  obtain ⟨sub,purpose,ref,exp⟩ := g
  cases purpose <;> simp [Grant.claims,Claims.For]

@[simp] theorem Grant.claims_sub (g : Grant) : g.claims.sub = g.sub := by
  obtain ⟨sub,purpose,ref,exp⟩ := g
  cases purpose <;> rfl

@[simp] theorem Grant.claims_reference (g : Grant) : g.claims.reference = g.ref := by
  obtain ⟨sub,purpose,ref,exp⟩ := g
  cases purpose <;> rfl

@[simp] theorem Grant.claims_exp (g : Grant) : g.claims.exp = g.exp := by
  obtain ⟨sub,purpose,ref,exp⟩ := g
  cases purpose <;> rfl

private theorem u64_int {n : Nat} (h : n < 18446744073709551616) :
    Json.u64 (.int n) = some (UInt64.ofNat n) := by
  have hrange : (0 : Int) ≤ n ∧ (n : Int) < 18446744073709551616 := by omega
  simp only [Json.u64,if_pos hrange,Int.toNat_natCast]

private theorem u16_int {n : Int} (hlow : 1 ≤ n) (hhigh : n ≤ maxPort) :
    Json.u16 (.int n) = some (UInt16.ofNat n.toNat) := by
  have hrange : 0 ≤ n ∧ n < 65536 := by
    unfold maxPort at hhigh
    omega
  simp only [Json.u16,if_pos hrange]

theorem deserialize_agentClaims (sub id : String) (ref : Option String) {exp : Nat}
    (hexp : exp < 18446744073709551616) : Claims.deserialize (agentClaims sub id ref exp) =
      some (Grant.claims ⟨sub,.agent id,ref,UInt64.ofNat exp⟩) := by
  cases ref <;> simp [Claims.deserialize,agentClaims,refField,field,Claims.ofFields,required,
    defaulted,Json.string,Json.optionString,u64_int hexp,Grant.claims]

theorem deserialize_hostClaims (sub host : String) {port : Int} (hlow : 1 ≤ port)
    (hhigh : port ≤ maxPort) (ref : Option String) {exp : Nat}
    (hexp : exp < 18446744073709551616) : Claims.deserialize (hostClaims sub host port ref exp) =
      some (Grant.claims ⟨sub,.address host (UInt16.ofNat port.toNat),ref,UInt64.ofNat exp⟩) := by
  cases ref <;> simp [Claims.deserialize,hostClaims,refField,field,Claims.ofFields,required,
    defaulted,Json.string,Json.optionString,u16_int hlow hhigh,u64_int hexp,Grant.claims]

theorem deserialize_presenceClaims (sub : String) {exp : Nat}
    (hexp : exp < 18446744073709551616) : Claims.deserialize (presenceClaims sub exp) =
      some (Grant.claims ⟨sub,.presence,none,UInt64.ofNat exp⟩) := by
  simp [Claims.deserialize,presenceClaims,field,Claims.ofFields,required,defaulted,Json.string,
    Json.optionString,u64_int hexp,Grant.claims]

/-- What a body asks a token for. -/
def Asks (body : Json) : Purpose → Prop
  | .address host port => body.get "host" = some (.str host) ∧ ∃ n : Int,
    body.get "port" = some (.int n) ∧ n = port.toNat
  | .agent id => body.get "agent" = some (.str id)
  | .presence => False

def Request.exp (r : Request) : Nat := r.now.seconds+r.subjectFor.ttl

/-- What the control plane signs under a key, and what it means by it. -/
inductive Issued (key : String) : Json → Grant → Prop
  | posted (r : Request) (body v : Json) (p : Purpose) (hkey : r.secret = some key)
      (hbody : r.body = some body) (hclaims : r.claims body = .ok v) (hasks : Asks body p) :
      Issued key v ⟨r.subjectFor.sub,p,refOf body,UInt64.ofNat r.exp⟩
  | presence (sub : String) (t : Time) :
      Issued key (presenceClaims sub (t.seconds+tokenTtlSeconds))
        ⟨sub,.presence,none,UInt64.ofNat (t.seconds+tokenTtlSeconds)⟩

private theorem seconds_lt (t : Time) : t.seconds ≤ 8640000000000 := by
  have hb := t.bounded
  unfold Time.seconds
  omega

private theorem exp_lt (r : Request) : r.exp < 18446744073709551616 := by
  have hs := seconds_lt r.now
  have httl : r.subjectFor.ttl ≤ 60 := by
    unfold Request.subjectFor
    split <;> exact Nat.le_of_ble_eq_true rfl
  unfold Request.exp
  omega

private theorem presenceExp_lt (t : Time) :
    t.seconds+tokenTtlSeconds < 18446744073709551616 := by
  have hs := seconds_lt t
  unfold tokenTtlSeconds
  omega

private theorem nonEmpty_eq {v : Option Json} {s : String} (h : nonEmpty v = some s) :
    v = some (.str s) := by
  unfold nonEmpty at h
  split at h
  · split at h
    · simp at h
    · rw [Option.some.inj h]
  · simp at h

private theorem asks_agent {body : Json} {id : String} (hid : body.get "agent" = some (.str id))
    (hone : ¬((body.get "agent").isSome ∧ (body.get "host").isSome)) {q : Purpose}
    (hq : Asks body q) : q = .agent id := by
  cases q with
  | address host port =>
    rw [hid,hq.1] at hone
    exact absurd ⟨rfl,rfl⟩ hone
  | agent other =>
    rw [Asks,hid] at hq
    rw [Json.str.inj (Option.some.inj hq)]
  | presence => exact hq.elim

private theorem asks_address {body : Json} {host : String} {n : Int}
    (hhost : body.get "host" = some (.str host)) (hn : body.get "port" = some (.int n))
    (hone : ¬((body.get "agent").isSome ∧ (body.get "host").isSome)) {q : Purpose}
    (hq : Asks body q) : q = .address host (UInt16.ofNat n.toNat) := by
  cases q with
  | address other port =>
    obtain ⟨hother,m,hm,hport⟩ := hq
    rw [hhost] at hother
    rw [hn] at hm
    have hnm : n = m := Json.int.inj (Option.some.inj hm)
    rw [Json.str.inj (Option.some.inj hother),hnm,hport,Int.toNat_natCast,UInt16.ofNat_toNat]
  | agent id =>
    rw [hhost,hq] at hone
    exact absurd ⟨rfl,rfl⟩ hone
  | presence => exact hq.elim

theorem claims_ok {r : Request} {body v : Json} (h : r.claims body = .ok v) :
    ∃ p, Asks body p ∧ (∀ q, Asks body q → q = p) ∧ Claims.deserialize v =
      some (Grant.claims ⟨r.subjectFor.sub,p,refOf body,UInt64.ofNat r.exp⟩) := by
  unfold Request.claims at h
  dsimp only at h
  split at h
  · simp at h
  · next hone =>
    split at h
    · simp at h
    · split at h
      · simp at h
      · next hport =>
        split at h
        · simp at h
        · split at h
          · next id hid =>
            split at h
            · simp at h
            · split at h
              · simp at h
              · obtain rfl := Except.ok.inj h
                have hagent := nonEmpty_eq hid
                refine ⟨.agent id,hagent,fun q hq => asks_agent hagent hone hq,?_⟩
                exact deserialize_agentClaims _ id _ (exp_lt r)
          · next host n hagent hhost hn =>
            obtain rfl := Except.ok.inj h
            have hhost := nonEmpty_eq hhost
            simp only [hn,portInvalid,Bool.or_eq_true,decide_eq_true_eq,not_or] at hport
            have hlow : 1 ≤ n := by omega
            have hhigh : n ≤ maxPort := by omega
            refine ⟨.address host (UInt16.ofNat n.toNat),⟨hhost,n,hn,?_⟩,
              fun q hq => asks_address hhost hn hone hq,?_⟩
            · rw [UInt16.toNat_ofNat']
              unfold maxPort at hhigh
              omega
            · exact deserialize_hostClaims _ host hlow hhigh _ (exp_lt r)
          · simp at h

theorem Issued.deserialize {key : String} {v : Json} {g : Grant} (h : Issued key v g) :
    Claims.deserialize v = some g.claims := by
  cases h with
  | posted r body v p hkey hbody hclaims hasks =>
    obtain ⟨q,_,honly,hv⟩ := claims_ok hclaims
    rw [honly p hasks]
    exact hv
  | presence sub t => exact deserialize_presenceClaims sub (presenceExp_lt t)

/-- An issued token is accepted for its purpose and until its end, and says what was meant. -/
theorem Issued.check {key : String} {v : Json} {g : Grant} (h : Issued key v g)
    (hreads : L.Reads v) {q : Purpose} :
    check L (utf8 key) (signed L key v) q now = .ok c ↔
      q = g.purpose ∧ now < g.exp ∧ c = g.claims := by
  rw [check_ok,decode_signed hreads h.deserialize,Grant.claims_exp]
  constructor
  · rintro ⟨⟨rfl,hexp⟩,hfor⟩
    exact ⟨hfor.unique g.claims_for,hexp,rfl⟩
  · rintro ⟨rfl,hexp,rfl⟩
    exact ⟨⟨rfl,hexp⟩,g.claims_for⟩

/-- Whoever shows a token with a right signature has it from the control plane. -/
def Unforgeable (L : Library) (key : String) (shown : String → Prop) : Prop :=
  ∀ token, shown token → ∀ payload signature,
    splitOnce '.' token.toList = some (payload,signature) →
    Base64.urlSafe.decode signature = some (L.hmac (utf8 key) (utf8 (String.ofList payload))) →
      ∃ v g, Issued key v g ∧ payload = Base64.urlSafe.encode (utf8 (L.stringify v))

private theorem accepted_issued {key : String} {shown : String → Prop}
    (hforge : Unforgeable L key shown) (hjson : ∀ v g, Issued key v g → L.Reads v)
    (hshown : shown token) {p : Purpose}
    (h : check L (utf8 key) token p now = .ok c) :
    ∃ v g, Issued key v g ∧ p = g.purpose ∧ now < g.exp ∧ c = g.claims := by
  obtain ⟨hdecode,hfor⟩ := check_ok.mp h
  obtain ⟨payload,signature,w,hsplit,hsig,hw,hclaims,hexp⟩ := decode_ok.mp hdecode
  obtain ⟨v,g,hissued,rfl⟩ := hforge token hshown payload signature hsplit hsig
  rw [Base64.urlSafe.decode_encode rfl,Option.bind_some,hjson v g hissued] at hw
  obtain rfl := Option.some.inj hw
  rw [hissued.deserialize] at hclaims
  obtain rfl := Option.some.inj hclaims
  rw [Grant.claims_exp] at hexp
  exact ⟨v,g,hissued,hfor.unique g.claims_for,hexp,rfl⟩

theorem post_ok {r : Request} {m : Minted} (h : post L r = .ok m) :
    ∃ key body v, r.secret = some key ∧ r.body = some body ∧ r.claims body = .ok v ∧
      m.token = signed L key v := by
  unfold post at h
  split at h
  · simp at h
  · split at h
    · simp at h
    · next key hkey =>
      split at h
      · simp at h
      · split at h
        · simp at h
        · simp at h
        · next body _ hbody =>
          cases hv : r.claims body with
          | error e => simp [hv,Except.map] at h
          | ok v =>
            rw [hv] at h
            rw [← Except.ok.inj h]
            exact ⟨key,body,v,hkey,hbody,hv,rfl⟩

/-- Tokens do what the control plane meant, and nothing else. -/
theorem tokens_have_one_purpose (L : Library) :
    (∀ r m, post L r = .ok m → ∃ key body v p, r.secret = some key ∧ r.body = some body ∧
      r.claims body = .ok v ∧ Asks body p ∧ (L.Reads v → ∀ q now c,
        check L (utf8 key) m.token q now = .ok c ↔ q = p ∧ now.toNat < r.exp ∧
          c = Grant.claims ⟨r.subjectFor.sub,p,refOf body,UInt64.ofNat r.exp⟩)) ∧
    (∀ key sub (t : Time), L.Reads (presenceClaims sub (t.seconds+tokenTtlSeconds)) → ∀ q now c,
      check L (utf8 key) (mintPresenceToken L key sub t.seconds) q now = .ok c ↔
        q = .presence ∧ now.toNat < t.seconds+tokenTtlSeconds ∧
          c = Grant.claims ⟨sub,.presence,none,UInt64.ofNat (t.seconds+tokenTtlSeconds)⟩) ∧
    (∀ secret token p q now later c d, check L secret token p now = .ok c →
      check L secret token q later = .ok d → p = q ∧ c = d ∧ now < c.exp) ∧
    (∀ key shown, Unforgeable L key shown → (∀ v g, Issued key v g → L.Reads v) →
      ∀ token, shown token → ∀ p now c,
      check L (utf8 key) token p now = .ok c →
        ∃ v g, Issued key v g ∧ p = g.purpose ∧ now < g.exp ∧ c = g.claims) := by
  refine ⟨?_,?_,?_,?_⟩
  · intro r m h
    obtain ⟨key,body,v,hkey,hbody,hv,htoken⟩ := post_ok h
    obtain ⟨p,hasks,_⟩ := claims_ok hv
    refine ⟨key,body,v,p,hkey,hbody,hv,hasks,?_⟩
    intro hreads q now c
    rw [htoken,(Issued.posted r body v p hkey hbody hv hasks).check hreads,UInt64.lt_iff_toNat_lt,
      UInt64.toNat_ofNat_of_lt' (exp_lt r)]
  · intro key sub t hreads q now c
    rw [mintPresenceToken,(Issued.presence sub t).check hreads,UInt64.lt_iff_toNat_lt,
      UInt64.toNat_ofNat_of_lt' (presenceExp_lt t)]
  · intro secret token p q now later c d hp hq
    exact check_unique hp hq
  · intro key shown hforge hjson token hshown p now c h
    exact accepted_issued hforge hjson hshown h

/-- What the libraries do for the token that the relay's tests carry. -/
def fixtureLibrary : Library where
  hmac _ _ := (Base64.urlSafe.decode "5YSIe08nn_uSq3AUskfN1FBPxEmcxIqtKvca8UonozQ".toList).getD []
  stringify _ :=
    "\x7b\"sub\":\"user-fixture\",\"scope\":\"presence\",\"exp\":1700000130\x7d"
  fromSlice _ := some (presenceClaims "user-fixture" 1700000130)

example : mintPresenceToken fixtureLibrary "fixture-secret" "user-fixture" 1700000100 =
    "eyJzdWIiOiJ1c2VyLWZpeHR1cmUiLCJzY29wZSI6InByZXNlbmNlIiwiZXhwIjoxNzAwMDAwMTMwfQ." ++
      "5YSIe08nn_uSq3AUskfN1FBPxEmcxIqtKvca8UonozQ" := by decide +kernel

def fixtureTime : Time := ⟨1700000100000,by decide⟩

theorem tokens_have_one_purpose_demo :
    check fixtureLibrary (utf8 "fixture-secret") (mintPresenceToken fixtureLibrary "fixture-secret"
      "user-fixture" fixtureTime.seconds) .presence 1700000000 =
        .ok ⟨"user-fixture","",0,none,some "presence",none,1700000130⟩ := by
  have hreads : fixtureLibrary.Reads
      (presenceClaims "user-fixture" (fixtureTime.seconds+tokenTtlSeconds)) := rfl
  have h := (tokens_have_one_purpose fixtureLibrary).2.1 "fixture-secret" "user-fixture"
    fixtureTime hreads
  exact (h .presence 1700000000 _).mpr ⟨rfl,by decide,rfl⟩

end WeirdVault.Relay.Token
