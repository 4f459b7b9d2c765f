import UnixLabs.Strtol

/-!
The command lines of the proxies of lab33 and of the sender of lab34.

The number of the listening port goes into an `in_port_t` before it is tested, and
that has 16 bits and no sign. Every number is accepted, and so is the empty string.
-/

namespace UnixLabs

/-- `htons` and `ntohs` of a little-endian machine. -/
def htons (port : BitVec 16) : BitVec 16 := port.extractLsb' 0 8 ++ port.extractLsb' 8 8

def htonl (addr : BitVec 32) : BitVec 32 :=
  htons (addr.extractLsb' 0 16) ++ htons (addr.extractLsb' 16 16)

def inaddrLoopback : BitVec 32 := 0x7F000001

def afInet : ℕ := 2

structure SockaddrIn where
  sinFamily : BitVec 16
  sinPort : BitVec 16
  sinAddr : BitVec 32
  deriving DecidableEq

def SockaddrIn.port (addr : SockaddrIn) : ℕ := (htons addr.sinPort).toNat

structure SocketAddress where
  address : SockaddrIn
  length : ℕ
  deriving DecidableEq

def initAddrIn (addr : BitVec 32) (port : BitVec 16) (family : ℕ) : SockaddrIn :=
  ⟨BitVec.ofNat 16 family, port, addr⟩

/-- What is reported before `EXIT_FAILURE`: the usage, the error code of `getaddrinfo`,
or that `LISTENING_PORT` must be a positive integer. -/
inductive ParseError where
  | usage
  | getaddrinfo (errCode : ℤ)
  | listeningPort
  deriving DecidableEq

def parseAddress (getaddrinfo : CString → CString → Except ℤ SocketAddress)
    (addrStr portStr : CString) : Except ParseError SocketAddress :=
  match getaddrinfo addrStr portStr with
  | .error errCode => .error (.getaddrinfo errCode)
  | .ok address => .ok address

/-- What all three programs do with `LISTENING_PORT`. -/
def listenerAddress (arg : CString) : Except ParseError SocketAddress :=
  let listenPort := BitVec.ofInt 16 (strtol arg.chars).value
  -- `*end` is the NUL where nothing is left
  if (strtol arg.chars).rest.headD 0 ≠ 0 ∨ (listenPort.toNat : ℤ) < 0 then .error .listeningPort
  else .ok ⟨initAddrIn (htonl inaddrLoopback) (htons listenPort) afInet, 16⟩

namespace Lab34

structure TunnelParams where
  listenerAddr : SocketAddress
  tunnelAddr : SocketAddress

def parseParams (getaddrinfo : CString → CString → Except ℤ SocketAddress) :
    List CString → Except ParseError TunnelParams
  | [_, listeningPort, ipAddr, destinationPort] => do
      let tunnelAddr ← parseAddress getaddrinfo ipAddr destinationPort
      let listenerAddr ← listenerAddress listeningPort
      .ok { listenerAddr, tunnelAddr }
  | _ => .error .usage

end Lab34

namespace Lab33

structure ProxyParams where
  listenerAddr : SocketAddress
  serverAddr : SocketAddress

def parseProxyParameters (getaddrinfo : CString → CString → Except ℤ SocketAddress) :
    List CString → Except ParseError ProxyParams
  | [_, listeningPort, ipAddr, destinationPort] => do
      let serverAddr ← parseAddress getaddrinfo ipAddr destinationPort
      let listenerAddr ← listenerAddress listeningPort
      .ok { listenerAddr, serverAddr }
  | _ => .error .usage

structure ServerParams where
  listenerAddr : SocketAddress

def parseServerParameters : List CString → Except ParseError ServerParams
  | [_, listeningPort] => (listenerAddress listeningPort).map ServerParams.mk
  | _ => .error .usage

end Lab33

/-! ### Accepted ports -/

/-- A port is accepted exactly when the string denotes one, and it is that one. -/
structure PortRight (arg : CString) (result : Except ParseError SocketAddress) : Prop where
  accepted : (∃ a, result = .ok a) ↔ ∃ i, Denotes arg.chars i ∧ 0 ≤ i ∧ i ≤ 65535
  carried : ∀ i a, Denotes arg.chars i → 0 ≤ i → i ≤ 65535 → result = .ok a →
    (a.address.port : ℤ) = i

/-- The string is not empty, and if it denotes a number, it denotes a port. -/
def PlainPort (arg : CString) : Prop :=
  arg.chars ≠ [] ∧ ∀ i, Denotes arg.chars i → 0 ≤ i ∧ i ≤ 65535

theorem htons_htons (port : BitVec 16) : htons (htons port) = port := by
  apply BitVec.eq_of_getLsbD_eq
  intro i hi
  simp only [htons, BitVec.getLsbD_append, BitVec.getLsbD_extractLsb']
  grind

/-- What is left behind a number starts with the NUL only where nothing is left. -/
theorem rest_headD (arg : CString) :
    (strtol arg.chars).rest.headD 0 = 0 ↔ (strtol arg.chars).rest = [] := by
  have hsuffix := strtol_rest_suffix arg.chars
  cases hrest : (strtol arg.chars).rest with
  | nil => exact iff_of_true rfl rfl
  | cons c rest =>
      rw [hrest] at hsuffix
      apply iff_of_false
      · rintro (rfl : c = 0)
        exact arg.noNul (hsuffix.mem List.mem_cons_self)
      · exact List.cons_ne_nil _ _

/-- The test for a negative port is never true. -/
theorem listenerAddress_eq (arg : CString) :
    listenerAddress arg = if (strtol arg.chars).rest = [] then
      .ok ⟨initAddrIn (htonl inaddrLoopback)
        (htons (BitVec.ofInt 16 (strtol arg.chars).value)) afInet, 16⟩
      else .error .listeningPort := by
  have hnonneg : ¬((BitVec.ofInt 16 (strtol arg.chars).value).toNat : ℤ) < 0 := by omega
  simp only [listenerAddress, hnonneg, or_false, ne_eq, rest_headD, ite_not]

theorem port_initAddrIn (addr : BitVec 32) (port : BitVec 16) (family : ℕ) :
    (initAddrIn addr (htons port) family).port = port.toNat :=
  congrArg BitVec.toNat (htons_htons port)

theorem toNat_ofInt_clampLong {i : ℤ} (hlow : 0 ≤ i) (hhigh : i ≤ 65535) :
    ((BitVec.ofInt 16 (clampLong i)).toNat : ℤ) = i := by
  rw [clampLong_of_mem (by unfold longMin; omega) (by unfold longMax; omega), BitVec.toNat_ofInt]
  omega

theorem listenerAddress_right_iff (arg : CString) :
    PortRight arg (listenerAddress arg) ↔ PlainPort arg := by
  rw [listenerAddress_eq]
  by_cases hdenotes : ∃ i, Denotes arg.chars i
  · obtain ⟨i, hi⟩ := hdenotes
    have hne : arg.chars ≠ [] := by
      obtain ⟨blanks, sign, digits, htext, -, hdigits, -⟩ := hi
      intro hnil
      rw [hnil] at htext
      simp only [List.nil_eq, List.append_eq_nil_iff] at htext
      exact hdigits htext.2.2
    rw [strtol_of_denotes hi, if_pos rfl]
    constructor
    · intro h
      obtain ⟨j, hj, hrange⟩ := h.accepted.mp ⟨_, rfl⟩
      exact ⟨hne, fun k hk => hk.unique hj ▸ hrange⟩
    · rintro ⟨-, hrange⟩
      refine ⟨iff_of_true ⟨_, rfl⟩ ⟨i, hi, hrange i hi⟩, fun j a hj hlow hhigh ha => ?_⟩
      cases ha
      obtain rfl := hj.unique hi
      rw [port_initAddrIn, toNat_ofInt_clampLong hlow hhigh]
  · have hnone : ∀ i, ¬Denotes arg.chars i := not_exists.mp hdenotes
    by_cases hempty : arg.chars = []
    · apply iff_of_false
      · intro h
        rw [hempty] at h
        obtain ⟨i, hi, -⟩ := h.accepted.mp ⟨_, if_pos rfl⟩
        exact hnone i hi
      · exact fun h => h.1 hempty
    · apply iff_of_true
      · rw [if_neg (mt (strtol_rest_of_not_denotes hnone) hempty)]
        refine ⟨iff_of_false ?_ fun h => hnone _ h.choose_spec.1, fun i _ hi => absurd hi (hnone i)⟩
        rintro ⟨a, ha⟩
        cases ha
      · exact ⟨hempty, fun i hi => absurd hi (hnone i)⟩

/-- Where the rest of the command line is in order, all three programs accept the ports
and nothing else exactly when the string is not empty and no number out of range. -/
theorem listening_port_iff {getaddrinfo : CString → CString → Except ℤ SocketAddress}
    {ipAddr destinationPort : CString} {a : SocketAddress}
    (hresolved : getaddrinfo ipAddr destinationPort = .ok a) (program arg : CString) :
    (PortRight arg ((Lab34.parseParams getaddrinfo
        [program, arg, ipAddr, destinationPort]).map Lab34.TunnelParams.listenerAddr) ↔
      PlainPort arg) ∧
    (PortRight arg ((Lab33.parseProxyParameters getaddrinfo
        [program, arg, ipAddr, destinationPort]).map Lab33.ProxyParams.listenerAddr) ↔
      PlainPort arg) ∧
    (PortRight arg ((Lab33.parseServerParameters
        [program, arg]).map Lab33.ServerParams.listenerAddr) ↔ PlainPort arg) := by
  have hparsed : parseAddress getaddrinfo ipAddr destinationPort = .ok a := by
    rw [parseAddress, hresolved]
  have hlistener := listenerAddress_right_iff arg
  refine ⟨?_, ?_, ?_⟩
  · rw [Lab34.parseParams, hparsed]
    cases hresult : listenerAddress arg with
    | error e => rwa [hresult] at hlistener
    | ok listener => rwa [hresult] at hlistener
  · rw [Lab33.parseProxyParameters, hparsed]
    cases hresult : listenerAddress arg with
    | error e => rwa [hresult] at hlistener
    | ok listener => rwa [hresult] at hlistener
  · rw [Lab33.parseServerParameters]
    cases hresult : listenerAddress arg with
    | error e => rwa [hresult] at hlistener
    | ok listener => rwa [hresult] at hlistener

theorem listening_port_iff_eighty :
    (PortRight ⟨[0x38, 0x30], by decide⟩ ((Lab34.parseParams
        (fun _ _ => .ok ⟨initAddrIn (htonl inaddrLoopback) (htons 7) afInet, 16⟩)
        [⟨[0x70], by decide⟩, ⟨[0x38, 0x30], by decide⟩, ⟨[0x68], by decide⟩,
          ⟨[0x37], by decide⟩]).map Lab34.TunnelParams.listenerAddr) ↔
      PlainPort ⟨[0x38, 0x30], by decide⟩) ∧
    (PortRight ⟨[0x38, 0x30], by decide⟩ ((Lab33.parseProxyParameters
        (fun _ _ => .ok ⟨initAddrIn (htonl inaddrLoopback) (htons 7) afInet, 16⟩)
        [⟨[0x70], by decide⟩, ⟨[0x38, 0x30], by decide⟩, ⟨[0x68], by decide⟩,
          ⟨[0x37], by decide⟩]).map Lab33.ProxyParams.listenerAddr) ↔
      PlainPort ⟨[0x38, 0x30], by decide⟩) ∧
    (PortRight ⟨[0x38, 0x30], by decide⟩ ((Lab33.parseServerParameters
        [⟨[0x70], by decide⟩, ⟨[0x38, 0x30], by decide⟩]).map
          Lab33.ServerParams.listenerAddr) ↔
      PlainPort ⟨[0x38, 0x30], by decide⟩) :=
  listening_port_iff rfl _ _

/-- 65616 is accepted as port 80. -/
theorem listening_port_wraps :
    (listenerAddress ⟨[0x36, 0x35, 0x36, 0x31, 0x36], by decide⟩).map
        (fun a => a.address.port) = .ok 80 ∧
      ¬PortRight ⟨[0x36, 0x35, 0x36, 0x31, 0x36], by decide⟩
        ((Lab33.parseServerParameters [⟨[0x70], by decide⟩,
          ⟨[0x36, 0x35, 0x36, 0x31, 0x36], by decide⟩]).map Lab33.ServerParams.listenerAddr) := by
  have hdenotes : Denotes [0x36, 0x35, 0x36, 0x31, 0x36] 65616 :=
    scanNumber_iff.mp (by decide +kernel)
  refine ⟨by decide +kernel, fun h => ?_⟩
  obtain ⟨i, hi, -, hhigh⟩ := h.accepted.mp ⟨_, rfl⟩
  have hsame := hi.unique hdenotes
  omega

end UnixLabs
