import OksSystem.Network.Host

/-!
# What a name resolves to

`resolve` takes the first entry of the answer for a `sockaddr_in` without a look at its family.

* `Gives`, `StartsInet` : an `AF_INET` address is in the answer, the answer begins with one;
* `findsGiven_iff`, `asksGiven_iff` : for which answers `resolve` and `expand` keep to the `AF_INET` addresses;
* `trusted_iff` : for which answers the comparison of two hosts can trust them.
-/

namespace OksSystem.Network
open ByteBuffer

namespace Answer

/-- The `AF_INET` address `x` occurs in the answer. -/
def Gives (ans : Answer) (x : SockaddrIn) : Prop :=
  ∃ sinPort sinAddr sinZero, AddrInfo.inet sinPort sinAddr sinZero ∈ ans.entries ∧
    x = ⟨AF_INET, sinPort, sinAddr, sinZero⟩

/-- No entry at all, or a first one of `AF_INET`. -/
def StartsInet : Answer → Prop
  | .failed => True
  | .list (.inet ..) _ => True
  | .list (.inet6 ..) _ => False

/-- The cast of the first entry is an `AF_INET` address, or has the address 0.0.0.0 and is not asked for. -/
def StartsSafe : Answer → Prop
  | .list (.inet6 _ sin6Flowinfo _ _) _ => sin6Flowinfo = .any
  | _ => True

/-- `sinAddr` is the one `AF_INET` address of the answer. -/
def OnlyAddress (ans : Answer) (sinAddr : InAddr) : Prop :=
  (∃ x, ans.Gives x) ∧ ∀ x, ans.Gives x → x.sinAddr = sinAddr

theorem not_gives_failed (x : SockaddrIn) : ¬ Gives .failed x := by
  rintro ⟨_, _, _, h, -⟩
  exact List.not_mem_nil h

variable {ans : Answer} {x : SockaddrIn}

theorem Gives.sinFamily_eq (h : ans.Gives x) : x.sinFamily = AF_INET := by
  obtain ⟨_, _, _, -, rfl⟩ := h
  rfl

theorem gives_castIn_inet (sinPort : UInt16) (sinAddr : InAddr) (sinZero : UInt64) (rest : List AddrInfo) :
    Gives (.list (.inet sinPort sinAddr sinZero) rest) (AddrInfo.inet sinPort sinAddr sinZero).castIn :=
  ⟨sinPort, sinAddr, sinZero, List.mem_cons_self, rfl⟩

end Answer

open Answer

theorem AF_INET6_ne_AF_INET : AF_INET6 ≠ AF_INET := by decide

namespace Host

variable (net net' : Resolver) (name name' : Str)

/-- What `resolve(name)` returns. -/
def addressOf : SockaddrIn := ((resolve net name).run []).1

/-- `resolve` finds an `AF_INET` address of the answer if there is one, and 0.0.0.0 otherwise. -/
structure FindsGiven : Prop where
  given : (∃ x, (net.getaddrinfo (cstr name)).Gives x) → (net.getaddrinfo (cstr name)).Gives (addressOf net name)
  noneGiven : (¬ ∃ x, (net.getaddrinfo (cstr name)).Gives x) →
    (addressOf net name).sinFamily = AF_INET ∧ (addressOf net name).sinAddr = .any

/-- `expand` asks for the names of `AF_INET` addresses of the answer only. -/
def AsksGiven : Prop := ∀ x, .address x ∈ ((expand net name).run []).2 → (net.getaddrinfo (cstr name)).Gives x

/-- Hosts whose names have one and the same `AF_INET` address, not 0.0.0.0, compare equal. -/
def SameAddressEqual : Prop :=
  ∀ sinAddr ≠ .any, (net.getaddrinfo (cstr name)).OnlyAddress sinAddr →
    (net'.getaddrinfo (cstr name')).OnlyAddress sinAddr →
      ((equals net net' ⟨name, []⟩ ⟨name', []⟩).run []).1.1 = true

structure Trusted : Prop where
  finds : FindsGiven net name
  finds' : FindsGiven net' name'
  asks : AsksGiven net name
  asks' : AsksGiven net' name'
  equal : SameAddressEqual net net' name name'

/-- Without a buffer for the service `getnameinfo` answers by `sin_addr`, and it answers the same at both lookups. -/
def NamedByAddress : Prop :=
  ∀ x y : SockaddrIn, x.sinFamily = AF_INET → y.sinFamily = AF_INET → x.sinAddr = y.sinAddr →
    net.getnameinfo x = net'.getnameinfo y

/-- What `resolve(address)` returns. -/
def nameOf (address : SockaddrIn) : Str := (net.getnameinfo address).elim (toString address) cstr

variable {net net' : Resolver} {name name' : Str}

theorem addressOf_of_failed (h : net.getaddrinfo (cstr name) = .failed) :
    addressOf net name = ⟨AF_INET, 0, .any, 0⟩ := by
  unfold addressOf resolve
  rw [h]
  rfl

theorem addressOf_of_list {first : AddrInfo} {rest : List AddrInfo}
    (h : net.getaddrinfo (cstr name) = .list first rest) : addressOf net name = first.castIn := by
  unfold addressOf resolve
  rw [h]
  rfl

theorem run_resolve (log : List Lookup) :
    (resolve net name).run log = (addressOf net name, log ++ [.name (cstr name)]) := by
  unfold addressOf resolve
  cases net.getaddrinfo (cstr name) <;> rfl

theorem run_resolveAddress (address : SockaddrIn) (log : List Lookup) :
    (resolveAddress net address).run log = (nameOf net address, log ++ [.address address]) := by
  unfold resolveAddress nameOf
  cases h : net.getnameinfo address <;> rfl

/-- A name is looked up, and then the name of its address. -/
theorem run_expand_of_ne (h : (addressOf net name).sinAddr ≠ .any) (log : List Lookup) : (expand net name).run log =
    (nameOf net (addressOf net name), log ++ [.name (cstr name)] ++ [.address (addressOf net name)]) := by
  unfold expand
  rw [StateT.run_bind, run_resolve]
  exact (congrArg (StateT.run · _) (if_pos h)).trans (run_resolveAddress _ _)

theorem run_expand_of_any (h : (addressOf net name).sinAddr = .any) (log : List Lookup) :
    (expand net name).run log = (name, log ++ [.name (cstr name)]) := by
  unfold expand
  rw [StateT.run_bind, run_resolve]
  exact congrArg (StateT.run · _) (if_neg (not_not.2 h))

/-- Two names that are not known yet are both expanded. -/
theorem run_equals_unknown (log : List Lookup) :
    ((equals net net' ⟨name, []⟩ ⟨name', []⟩).run log).1.1 =
      (((expand net name).run log).1 == ((expand net' name').run ((expand net name).run log).2).1) := rfl

theorem nameOf_congr {x y : SockaddrIn} (hby : NamedByAddress net net') (hx : x.sinFamily = AF_INET)
    (hy : y.sinFamily = AF_INET) (h : x.sinAddr = y.sinAddr) : nameOf net x = nameOf net' y := by
  unfold nameOf
  have hanswer := hby x y hx hy h
  have htext : toString x = toString y := congrArg inetNtoa h
  rw [hanswer, htext]

/-- An answer that begins with an `AF_INET6` address is always read wrong: the family says so. -/
theorem findsGiven_iff : FindsGiven net name ↔ (net.getaddrinfo (cstr name)).StartsInet := by
  cases hans : net.getaddrinfo (cstr name) with
  | failed =>
    refine iff_of_true ⟨?_, fun _ => ?_⟩ trivial
    · rw [hans]
      rintro ⟨x, hx⟩
      exact absurd hx (not_gives_failed x)
    · rw [addressOf_of_failed hans]
      exact ⟨rfl, rfl⟩
  | list first rest =>
    have hresolve := addressOf_of_list hans
    cases first with
    | inet sinPort sinAddr sinZero =>
      have hgives := gives_castIn_inet sinPort sinAddr sinZero rest
      refine iff_of_true ⟨fun _ => ?_, fun hnone => ?_⟩ trivial
      · rwa [hans, hresolve]
      · rw [hans] at hnone
        exact absurd ⟨_, hgives⟩ hnone
    | inet6 sin6Port sin6Flowinfo sin6Addr sin6ScopeId =>
      refine iff_of_false (fun h => AF_INET6_ne_AF_INET ?_) id
      have hfamily : (addressOf net name).sinFamily = AF_INET6 := by rw [hresolve]; rfl
      rw [← hfamily]
      by_cases hsome : ∃ x, (net.getaddrinfo (cstr name)).Gives x
      · exact (h.given hsome).sinFamily_eq
      · exact (h.noneGiven hsome).1

/-- The one address that `expand` asks for. -/
theorem asked_iff {x : SockaddrIn} : .address x ∈ ((expand net name).run []).2 ↔
    (addressOf net name).sinAddr ≠ .any ∧ x = addressOf net name := by
  by_cases hany : (addressOf net name).sinAddr = .any
  · rw [run_expand_of_any hany]
    simp [hany]
  · rw [run_expand_of_ne hany]
    simp [hany]

theorem asksGiven_of_findsGiven (h : FindsGiven net name) : AsksGiven net name := by
  intro x hx
  obtain ⟨hany, rfl⟩ := asked_iff.1 hx
  apply h.given
  exact not_not.1 fun hnone => hany (h.noneGiven hnone).2

/-- The flow information of an `AF_INET6` address is taken for an address, and asked for unless it is 0. -/
theorem asksGiven_iff : AsksGiven net name ↔ (net.getaddrinfo (cstr name)).StartsSafe := by
  by_cases hinet : (net.getaddrinfo (cstr name)).StartsInet
  · refine iff_of_true (asksGiven_of_findsGiven (findsGiven_iff.2 hinet)) ?_
    revert hinet
    cases net.getaddrinfo (cstr name) with
    | failed => exact fun _ => trivial
    | list first rest =>
      cases first with
      | inet => exact fun _ => trivial
      | inet6 => exact False.elim
  · match hans : net.getaddrinfo (cstr name), hinet with
    | .failed, hinet => exact absurd trivial hinet
    | .list (.inet ..) _, hinet => exact absurd trivial hinet
    | .list (.inet6 sin6Port sin6Flowinfo sin6Addr sin6ScopeId) rest, _ =>
      have hresolve := addressOf_of_list hans
      have haddr : (addressOf net name).sinAddr = sin6Flowinfo := by rw [hresolve]; rfl
      change AsksGiven net name ↔ sin6Flowinfo = .any
      rw [← haddr]
      constructor
      · intro h
        by_contra hany
        have hgives := h (addressOf net name) (asked_iff.2 ⟨hany, rfl⟩)
        have hfamily := hgives.sinFamily_eq
        rw [hresolve] at hfamily
        exact AF_INET6_ne_AF_INET hfamily
      · intro hany x hx
        exact absurd hany (asked_iff.1 hx).1

/-- What was found for the one address of an answer is that address. -/
theorem FindsGiven.resolve_of_onlyAddress {sinAddr : InAddr} (h : FindsGiven net name)
    (honly : (net.getaddrinfo (cstr name)).OnlyAddress sinAddr) :
    (addressOf net name).sinFamily = AF_INET ∧ (addressOf net name).sinAddr = sinAddr := by
  have hgives := h.given honly.1
  exact ⟨hgives.sinFamily_eq, honly.2 _ hgives⟩

theorem sameAddressEqual_of_findsGiven (hby : NamedByAddress net net') (h : FindsGiven net name)
    (h' : FindsGiven net' name') : SameAddressEqual net net' name name' := by
  intro sinAddr hne honly honly'
  obtain ⟨hfamily, haddr⟩ := h.resolve_of_onlyAddress honly
  obtain ⟨hfamily', haddr'⟩ := h'.resolve_of_onlyAddress honly'
  have hnames : nameOf net (addressOf net name) = nameOf net' (addressOf net' name') := by
    apply nameOf_congr hby hfamily hfamily'
    rw [haddr, haddr']
  rw [run_equals_unknown, run_expand_of_ne (by rwa [haddr]), run_expand_of_ne (by rwa [haddr']), hnames]
  exact beq_self_eq_true _

/-- **The cast is right for an answer that begins with an `AF_INET` address**, and for no other one: `resolve` finds an
address of the answer, `expand` asks for nothing else and two hosts with one address compare equal exactly when both
answers are failures or begin so. `expand` alone is also right where the flow information is 0. -/
theorem trusted_iff (net net' : Resolver) (name name' : Str) (hby : NamedByAddress net net') :
    (Trusted net net' name name' ↔
      (net.getaddrinfo (cstr name)).StartsInet ∧ (net'.getaddrinfo (cstr name')).StartsInet) ∧
    (FindsGiven net name ↔ (net.getaddrinfo (cstr name)).StartsInet) ∧
    (AsksGiven net name ↔ (net.getaddrinfo (cstr name)).StartsSafe) := by
  refine ⟨⟨fun h => ⟨findsGiven_iff.1 h.finds, findsGiven_iff.1 h.finds'⟩, fun h => ?_⟩, findsGiven_iff, asksGiven_iff⟩
  have hfinds := findsGiven_iff.2 h.1
  have hfinds' := findsGiven_iff.2 h.2
  exact ⟨hfinds, hfinds', asksGiven_of_findsGiven hfinds, asksGiven_of_findsGiven hfinds',
    sameAddressEqual_of_findsGiven hby hfinds hfinds'⟩

/-- Two names of the loopback device with one answer for both, and the name that its `AF_INET` address has. -/
def loopback (answer : Answer) : Resolver where
  getaddrinfo name := if name = text "localhost" ∨ name = text "localhost.localdomain" then answer else .failed
  getnameinfo x := if x.sinFamily = AF_INET ∧ x.sinAddr = ⟨127, 0, 0, 1⟩ then some (text "localhost") else none

def inetLoopback : Resolver := loopback (.list (.inet 0 ⟨127, 0, 0, 1⟩ 0) [.inet6 0 .any (0, 0x0100000000000000) 0])

def inet6Loopback : Resolver := loopback (.list (.inet6 0 .any (0, 0x0100000000000000) 0) [.inet 0 ⟨127, 0, 0, 1⟩ 0])

theorem namedByAddress_loopback (answer : Answer) : NamedByAddress (loopback answer) (loopback answer) := by
  intro x y hx hy h
  simp only [loopback, hx, hy, h]

theorem trusted_iff_inetLoopback :
    Trusted inetLoopback inetLoopback (text "localhost") (text "localhost.localdomain") ∧
      ((equals inetLoopback inetLoopback ⟨text "localhost", []⟩ ⟨text "localhost.localdomain", []⟩).run []).1.1 = true := by
  have htrusted := (trusted_iff inetLoopback inetLoopback (text "localhost") (text "localhost.localdomain")
    (namedByAddress_loopback _)).1.2 ⟨trivial, trivial⟩
  have honly (name : Str) (h : inetLoopback.getaddrinfo (cstr name) =
      .list (.inet 0 ⟨127, 0, 0, 1⟩ 0) [.inet6 0 .any (0, 0x0100000000000000) 0]) :
      (inetLoopback.getaddrinfo (cstr name)).OnlyAddress ⟨127, 0, 0, 1⟩ := by
    rw [h]
    refine ⟨⟨_, gives_castIn_inet ..⟩, ?_⟩
    rintro x ⟨sinPort, sinAddr, sinZero, hmem, rfl⟩
    simp only [Answer.entries, List.mem_cons, AddrInfo.inet.injEq, reduceCtorEq, List.not_mem_nil, or_false] at hmem
    exact hmem.2.1
  exact ⟨htrusted, htrusted.equal ⟨127, 0, 0, 1⟩ (by decide) (honly _ rfl) (honly _ rfl)⟩

/-- With the `AF_INET6` address first `resolve` returns 0.0.0.0 under its family, and the two names of one address differ. -/
theorem not_trusted_inet6Loopback :
    (inet6Loopback.getaddrinfo (cstr (text "localhost"))).Gives ⟨AF_INET, 0, ⟨127, 0, 0, 1⟩, 0⟩ ∧
      addressOf inet6Loopback (text "localhost") = ⟨AF_INET6, 0, .any, 0⟩ ∧
      ((equals inet6Loopback inet6Loopback ⟨text "localhost", []⟩ ⟨text "localhost.localdomain", []⟩).run []).1.1 = false ∧
      ¬ Trusted inet6Loopback inet6Loopback (text "localhost") (text "localhost.localdomain") := by
  refine ⟨⟨0, ⟨127, 0, 0, 1⟩, 0, ?_, rfl⟩, rfl, rfl, fun h => findsGiven_iff.1 h.finds⟩
  exact List.mem_cons_of_mem _ List.mem_cons_self

end Host

end OksSystem.Network
