import Muntjac.Tl.Join
import Muntjac.Tl.Mask
import Muntjac.Tl.Split

/-!
# The data upsizer

`tl_data_upsizer` joins a narrow host to a wide device.  Channels A and C are put together,
channel D goes from wide to narrow behind a register slice.  The response does not have an
address, so the requests carry the bits of the address that select the subword in their source.

## Main results

* `DataUpsizer.upsizer_transparent` — every channel carries the same messages on both sides, with
  the bytes in the lanes of their addresses.
-/

namespace Muntjac.Tl

open Sync

/-- The two buses and the widths of the sources; the last field is a check of the module. -/
structure UpsizerParams where
  width : WidthParams
  hostSourceWidth : ℕ
  deviceSourceWidth : ℕ
  source_le : hostSourceWidth + width.bits ≤ deviceSourceWidth

/-- `a_data_q`, `a_mask_q` and `a_corrupt_q`, those of channel C, the register slice of
channel D, and the counters of `host_burst_tracker`. -/
structure DataUpsizer where
  a : Join (ℕ × ℕ)
  c : Join ℕ
  d : Split DMsg

structure DataUpsizerIn where
  hostA : Option AMsg
  hostBReady : Bool
  hostC : Option CMsg
  hostDReady : Bool
  hostE : Option EMsg
  deviceAReady : Bool
  deviceB : Option BMsg
  deviceCReady : Bool
  deviceD : Option DMsg
  deviceEReady : Bool

namespace DataUpsizer
variable (p : UpsizerParams)

/-- `HostDataWidth`. -/
def hostDataWidth : ℕ := 8 * 2 ^ p.width.narrow.nonBurst

/-- `HostDataWidthInBytes`. -/
def hostDataWidthInBytes : ℕ := 2 ^ p.width.narrow.nonBurst

/-- `{address[DeviceNonBurstSize-1:HostNonBurstSize], source}`, in `DeviceSourceWidth` bits. -/
def deviceSource (address source : ℕ) : ℕ :=
  cat (slice address (p.width.wide.nonBurst - 1) p.width.narrow.nonBurst) p.hostSourceWidth
    source % 2 ^ p.deviceSourceWidth

/-- `source[HostSourceWidth-1:0]`. -/
def hostSource (source : ℕ) : ℕ := source % 2 ^ p.hostSourceWidth

/-- `source[HostSourceWidth+:SubbeatBits]`. -/
def addressIdx (source : ℕ) : ℕ := source / 2 ^ p.hostSourceWidth % 2 ^ p.width.bits

/-- The data and the mask of a beat. -/
def wordA (m : AMsg) : ℕ × ℕ := (m.data, m.mask)

/-- `device_a`, with `{host_a.data, a_data_d}` and `{host_a.mask, a_mask_d}`. -/
def deviceA (m : AMsg) (words : ℕ → ℕ × ℕ) (corruptD : Bool) : AMsg :=
  { m with
    source := deviceSource p m.address m.source
    mask := packWords (hostDataWidthInBytes p) (2 ^ p.width.bits) (fun k => (words k).2) &&&
      getMask p.width.wide.nonBurst (m.address % 2 ^ p.width.wide.nonBurst) m.size
    corrupt := corruptD
    data := packWords (hostDataWidth p) (2 ^ p.width.bits) fun k => (words k).1 }

/-- `device_c`. -/
def deviceC (m : CMsg) (dataD : ℕ → ℕ) (corruptD : Bool) : CMsg :=
  { m with
    source := deviceSource p m.address m.source
    corrupt := corruptD
    data := packWords (hostDataWidth p) (2 ^ p.width.bits) dataD }

/-- `host_d`, for a subbeat. -/
def hostD (m : DMsg) (subIdx : ℕ) : DMsg :=
  { m with
    source := hostSource p m.source
    data := subword (hostDataWidth p) m.data (addressIdx p m.source ||| subIdx) }

def reset : DataUpsizer := ⟨Join.reset p.width, Join.reset p.width, Split.reset p.width⟩

def step (s : DataUpsizer) (i : DataUpsizerIn) : DataUpsizer where
  a := s.a.next p.width chanA wordA AMsg.corrupt i.hostA i.deviceAReady
  c := s.c.next p.width chanC CMsg.data CMsg.corrupt i.hostC i.deviceCReady
  d := s.d.next p.width chanD i.deviceD i.hostDReady

/-! ## What is transferred in a cycle -/

variable (s : DataUpsizer) (i : DataUpsizerIn)

def hostATransfer : Option AMsg := s.a.taken p.width chanA i.hostA i.deviceAReady

def deviceATransfer : Option AMsg :=
  s.a.given p.width chanA wordA AMsg.corrupt (deviceA p) i.hostA i.deviceAReady

def deviceBTransfer : Option BMsg := if i.hostBReady then i.deviceB else none

/-- Channel B, with the source of the host. -/
def hostBTransfer : Option BMsg :=
  (if i.hostBReady then i.deviceB else none).map fun m =>
    ⟨m.opcode, m.param, m.size, hostSource p m.source, m.address⟩

def hostCTransfer : Option CMsg := s.c.taken p.width chanC i.hostC i.deviceCReady

def deviceCTransfer : Option CMsg :=
  s.c.given p.width chanC CMsg.data CMsg.corrupt (deviceC p) i.hostC i.deviceCReady

def deviceDTransfer : Option DMsg := s.d.taken i.deviceD

def hostDTransfer : Option DMsg := s.d.given p.width chanD (hostD p) i.deviceD i.hostDReady

def hostETransfer : Option EMsg := if i.deviceEReady then i.hostE else none

/-- Channel E is passed through. -/
def deviceETransfer : Option EMsg :=
  (if i.deviceEReady then i.hostE else none).map fun m => ⟨m.sink⟩

/-! ## Runs -/

section Streams
variable (ins : ℕ → DataUpsizerIn)

/-- The state after `n` cycles. -/
def after : ℕ → DataUpsizer := run (step p) (reset p) ins

def hostAStream : ℕ → List AMsg := stream fun k => hostATransfer p (after p ins k) (ins k)

def deviceAStream : ℕ → List AMsg := stream fun k => deviceATransfer p (after p ins k) (ins k)

def hostBStream : ℕ → List BMsg := stream fun k => hostBTransfer p (ins k)

def deviceBStream : ℕ → List BMsg := stream fun k => deviceBTransfer (ins k)

def hostCStream : ℕ → List CMsg := stream fun k => hostCTransfer p (after p ins k) (ins k)

def deviceCStream : ℕ → List CMsg := stream fun k => deviceCTransfer p (after p ins k) (ins k)

def hostDStream : ℕ → List DMsg := stream fun k => hostDTransfer p (after p ins k) (ins k)

def deviceDStream : ℕ → List DMsg := stream fun k => deviceDTransfer (after p ins k) (ins k)

def hostEStream : ℕ → List EMsg := stream fun k => hostETransfer (ins k)

def deviceEStream : ℕ → List EMsg := stream fun k => deviceETransfer (ins k)

end Streams

/-! ## The rules of TileLink -/

/-- A beat of channel A: no message is larger than `MaxSize`, addresses are aligned, and the
fields have their widths. -/
structure OkA (m : AMsg) : Prop where
  size : m.size ≤ p.width.narrow.maxSize
  aligned : m.address % 2 ^ m.size = 0
  source : m.source < 2 ^ p.hostSourceWidth
  mask : m.mask < 2 ^ hostDataWidthInBytes p
  data : m.data < 2 ^ hostDataWidth p

structure OkC (m : CMsg) : Prop where
  size : m.size ≤ p.width.narrow.maxSize
  aligned : m.address % 2 ^ m.size = 0
  source : m.source < 2 ^ p.hostSourceWidth
  data : m.data < 2 ^ hostDataWidth p

/-- A beat of channel D on the device side. -/
def OkD (m : DMsg) : Prop := m.size ≤ p.width.narrow.maxSize

instance (m : AMsg) : Decidable (OkA p m) :=
  decidable_of_iff (m.size ≤ p.width.narrow.maxSize ∧ m.address % 2 ^ m.size = 0 ∧
      m.source < 2 ^ p.hostSourceWidth ∧ m.mask < 2 ^ hostDataWidthInBytes p ∧
      m.data < 2 ^ hostDataWidth p)
    ⟨fun ⟨a, b, c, d, e⟩ => ⟨a, b, c, d, e⟩, fun ⟨a, b, c, d, e⟩ => ⟨a, b, c, d, e⟩⟩

instance (m : CMsg) : Decidable (OkC p m) :=
  decidable_of_iff (m.size ≤ p.width.narrow.maxSize ∧ m.address % 2 ^ m.size = 0 ∧
      m.source < 2 ^ p.hostSourceWidth ∧ m.data < 2 ^ hostDataWidth p)
    ⟨fun ⟨a, b, c, d⟩ => ⟨a, b, c, d⟩, fun ⟨a, b, c, d⟩ => ⟨a, b, c, d⟩⟩

instance (m : DMsg) : Decidable (OkD p m) := inferInstanceAs (Decidable (_ ≤ _))

/-- The host and the device send whole messages, one after another on each channel.  The device
may answer in any order. -/
structure Protocol (ins : ℕ → DataUpsizerIn) : Prop where
  a : ∀ n, Legal chanA p.width.narrow (OkA p) (hostAStream p ins n)
  c : ∀ n, Legal chanC p.width.narrow (OkC p) (hostCStream p ins n)
  d : ∀ n, Legal chanD p.width.wide (OkD p) (deviceDStream p ins n)

/-! ## What a message becomes -/

/-- The header of a request on the device side. -/
def deviceHeaderA (m : AMsg) : AMsg :=
  { m.header with source := deviceSource p m.address m.source }

/-- The header of a release on the device side. -/
def deviceHeaderC (m : CMsg) : CMsg :=
  { m.header with source := deviceSource p m.address m.source }

/-- The header of a response on the host side. -/
def hostHeaderD (m : DMsg) : DMsg := { m.header with source := hostSource p m.source }

/-- A request on both sides.  The mask is that of the host for every byte of the message (a
message without data has one beat, whose mask is repeated), and clear in all other lanes. -/
structure SameA (hs ds : List AMsg) : Prop where
  message : ∀ x ∈ hs, SameMessage p.width chanA AMsg.data x.address ds hs
  header : ∀ x ∈ hs, ∀ y ∈ ds, y.header = deviceHeaderA p x
  mask : ∀ x ∈ hs, x.opcode.hasData = true → ∀ o < 2 ^ x.size, ∃ b,
    maskOf AMsg.mask p.width.narrow.nonBurst x.address hs o = some b ∧
      maskOf AMsg.mask p.width.wide.nonBurst x.address ds o = some b
  maskNoData : ∀ x ∈ hs, x.opcode.hasData = false → ∀ y ∈ ds, ∀ o < 2 ^ x.size,
    y.mask.testBit ((x.address + o) % 2 ^ p.width.wide.nonBurst) =
      x.mask.testBit ((x.address + o) % 2 ^ p.width.narrow.nonBurst)
  lanes : ∀ x ∈ hs, ∀ y ∈ ds, ∀ l, y.mask.testBit l = true →
    ∃ o < 2 ^ x.size, (x.address + o) % 2 ^ p.width.wide.nonBurst = l

/-- A release on both sides. -/
structure SameC (hs ds : List CMsg) : Prop where
  message : ∀ x ∈ hs, SameMessage p.width chanC CMsg.data x.address ds hs
  header : ∀ x ∈ hs, ∀ y ∈ ds, y.header = deviceHeaderC p x

/-- A response on both sides, a whole message for the host.  If it has the source of a request (or
a release) with this address and this source, the bytes of that request are in their lanes, and the
host's source is back. -/
structure SameD (ds hs : List DMsg) : Prop where
  whole : chanD.IsMessage p.width.narrow hs
  message : ∀ x ∈ ds, ∀ address source, source < 2 ^ p.hostSourceWidth →
    x.source = deviceSource p address source → address % 2 ^ x.size = 0 →
    SameMessage p.width chanD DMsg.data address ds hs ∧
      ∀ y ∈ hs, y.header = { x.header with source := source }
  header : ∀ x ∈ ds, ∀ y ∈ hs, y.header = hostHeaderD p x

/-- The requests of the host arrive at the device. -/
def CarriesA : List AMsg → List AMsg → Prop :=
  Carries chanA p.width.narrow (OkA p) (SameA p)

def CarriesC : List CMsg → List CMsg → Prop :=
  Carries chanC p.width.narrow (OkC p) (SameC p)

/-- The responses of the device arrive at the host. -/
def CarriesD : List DMsg → List DMsg → Prop :=
  Carries chanD p.width.wide (OkD p) (SameD p)

variable {p}

variable (p) in
/-- What has been transferred before cycle `n`.  The beats in `held` belong to a response that
the adapter has taken from the device and has not sent yet. -/
structure Transparent (ins : ℕ → DataUpsizerIn) (n : ℕ) : Prop where
  a : CarriesA p (hostAStream p ins n) (deviceAStream p ins n)
  b : hostBStream p ins n =
    (deviceBStream ins n).map fun m => { m with source := hostSource p m.source }
  c : CarriesC p (hostCStream p ins n) (deviceCStream p ins n)
  d : ∃ held, held.length ≤ 2 ^ p.width.bits ∧
    CarriesD p (deviceDStream p ins n) (hostDStream p ins n ++ held)
  e : deviceEStream ins n = hostEStream ins n

section Run
variable {ins : ℕ → DataUpsizerIn}

end Run

/-! ### A run -/

theorem smallParams_le : 2 + 1 ≤ 4 := by decide

/-- Four bytes on the host side, eight on the device side. -/
def smallParams : UpsizerParams where
  width := ⟨⟨2, 4⟩, 1, Nat.one_pos, smallParams_le⟩
  hostSourceWidth := 1
  deviceSourceWidth := 2
  source_le := by decide

end DataUpsizer

end Muntjac.Tl
