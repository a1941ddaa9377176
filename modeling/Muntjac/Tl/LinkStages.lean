import Muntjac.Sync.FifoSync
import Muntjac.Sync.RegSlices
import Muntjac.Tl.Msg

/-!
# Stages on a link

`tl_regslice` and `tl_fifo_sync` put a register slice or a FIFO into each of the five channels of
a link.  Requests, releases and acknowledgements pass the stages from the host to the device,
probes and grants from the device to the host.

## Main definitions

* `LinkStage` — a stage with its parameters, and the carrier of each channel.

## Main results

* `link_transparent` — a link with any stages in any order is transparent.
-/

namespace Muntjac.Tl

open Sync

/-- The parameters of `tl_regslice`; the bits of a mode are those of `sliceOf`. -/
structure RegsliceParams where
  requestMode : ℕ
  probeMode : ℕ
  releaseMode : ℕ
  grantMode : ℕ
  ackMode : ℕ

/-- The parameters of `tl_fifo_sync`. -/
structure FifoSyncParams where
  requestFifoPass : Bool
  probeFifoPass : Bool
  releaseFifoPass : Bool
  grantFifoPass : Bool
  ackFifoPass : Bool
  requestFifoDepth : ℕ
  probeFifoDepth : ℕ
  releaseFifoDepth : ℕ
  grantFifoDepth : ℕ
  ackFifoDepth : ℕ

inductive LinkStage
  | regslice (p : RegsliceParams)
  | fifoSync (p : FifoSyncParams)

/-- The slice of a mode: bit 0 is `FORWARD`, bit 1 `REVERSE`, bit 2 `HIGH_PERFORMANCE`. -/
def sliceOf (mode : ℕ) (α : Type) : Carrier α :=
  regSlice (mode &&& 1 != 0) (mode &&& 2 != 0) (mode &&& 4 != 0) α

/-- The FIFO of a channel; its output is zero while it is empty. -/
def fifoOf (pass : Bool) (depth : ℕ) (α : Type) [Inhabited α] : Carrier α :=
  fifoSync ⟨depth, pass, true, default⟩

namespace LinkStage

def a : LinkStage → Carrier AMsg
  | regslice p => sliceOf p.requestMode AMsg
  | fifoSync p => fifoOf p.requestFifoPass p.requestFifoDepth AMsg

def b : LinkStage → Carrier BMsg
  | regslice p => sliceOf p.probeMode BMsg
  | fifoSync p => fifoOf p.probeFifoPass p.probeFifoDepth BMsg

def c : LinkStage → Carrier CMsg
  | regslice p => sliceOf p.releaseMode CMsg
  | fifoSync p => fifoOf p.releaseFifoPass p.releaseFifoDepth CMsg

def d : LinkStage → Carrier DMsg
  | regslice p => sliceOf p.grantMode DMsg
  | fifoSync p => fifoOf p.grantFifoPass p.grantFifoDepth DMsg

def e : LinkStage → Carrier EMsg
  | regslice p => sliceOf p.ackMode EMsg
  | fifoSync p => fifoOf p.ackFifoPass p.ackFifoDepth EMsg

/-- The number of messages that a stage can hold, where `depth` is the depth of its FIFO. -/
def room (depth : FifoSyncParams → ℕ) : LinkStage → ℕ
  | regslice _ => 2
  | fifoSync p => depth p

end LinkStage

/-- A carrier that is transparent in any chain. -/
structure Sound {α : Type} (c : Carrier α) (cap : ℕ) : Prop where
  bounded : c.Bounded cap
  prompt : c.Prompt
  stable : c.Stable

theorem sound_slice (mode : ℕ) (α : Type) : Sound (sliceOf mode α) 2 :=
  ⟨regSlice_bounded _ _ _, regSlice_prompt _ _ _, regSlice_stable _ _ _⟩

theorem sound_fifo (pass : Bool) (depth : ℕ) (α : Type) [Inhabited α] :
    Sound (fifoOf pass depth α) depth :=
  ⟨fifoSync_bounded _, fifoSync_prompt _, fifoSync_stable _⟩

/-- The room of a link in one channel. -/
def linkRoom (depth : FifoSyncParams → ℕ) (stages : List LinkStage) : ℕ :=
  stages.foldr (fun stage n => stage.room depth + n) 0

theorem sound_stage {α : Type} {channel : LinkStage → Carrier α} {depth : FifoSyncParams → ℕ}
    (hslice : ∀ p, Sound (channel (.regslice p)) 2)
    (hfifo : ∀ p, Sound (channel (.fifoSync p)) (depth p)) (stage : LinkStage) :
    Sound (channel stage) (stage.room depth) := by
  cases stage with
  | regslice p => exact hslice p
  | fifoSync p => exact hfifo p

theorem chain_sound {α : Type} {channel : LinkStage → Carrier α} {depth : FifoSyncParams → ℕ}
    (hslice : ∀ p, Sound (channel (.regslice p)) 2)
    (hfifo : ∀ p, Sound (channel (.fifoSync p)) (depth p)) (stages : List LinkStage) :
    (Carrier.chain (stages.map channel)).Transparent (linkRoom depth stages) := by
  have h := sound_stage hslice hfifo
  exact Carrier.chain_transparent channel (fun s => (h s).bounded) (fun s => (h s).prompt.live)
    (fun s => (h s).stable) stages

/-- A link with any register slices and FIFOs, of any modes, depths and number, is transparent in
each of its five channels: the messages arrive in order, none lost, repeated or invented, all of
them if the receiver goes on, and an offer stays until it is taken. -/
theorem link_transparent (stages : List LinkStage) :
    (Carrier.chain (stages.map LinkStage.a)).Transparent
        (linkRoom FifoSyncParams.requestFifoDepth stages) ∧
      (Carrier.chain (stages.reverse.map LinkStage.b)).Transparent
        (linkRoom FifoSyncParams.probeFifoDepth stages.reverse) ∧
      (Carrier.chain (stages.map LinkStage.c)).Transparent
        (linkRoom FifoSyncParams.releaseFifoDepth stages) ∧
      (Carrier.chain (stages.reverse.map LinkStage.d)).Transparent
        (linkRoom FifoSyncParams.grantFifoDepth stages.reverse) ∧
      (Carrier.chain (stages.map LinkStage.e)).Transparent
        (linkRoom FifoSyncParams.ackFifoDepth stages) := by
  refine ⟨?_, ?_, ?_, ?_, ?_⟩
  · exact chain_sound (fun _ => sound_slice _ _) (fun _ => sound_fifo _ _ _) stages
  · exact chain_sound (fun _ => sound_slice _ _) (fun _ => sound_fifo _ _ _) stages.reverse
  · exact chain_sound (fun _ => sound_slice _ _) (fun _ => sound_fifo _ _ _) stages
  · exact chain_sound (fun _ => sound_slice _ _) (fun _ => sound_fifo _ _ _) stages.reverse
  · exact chain_sound (fun _ => sound_slice _ _) (fun _ => sound_fifo _ _ _) stages

end Muntjac.Tl
