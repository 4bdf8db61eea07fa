import SerialAta.Host.BusMaster
import SerialAta.Host.Setup
import SerialAta.Host.Transfers
import SerialAta.Json.Vocabulary
import SerialAta.Proofs.Drive.Delivery
import SerialAta.Proofs.Drive.DiskWrites
import SerialAta.Proofs.Frame.WireForm
import SerialAta.Proofs.Link.Reception
import SerialAta.Proofs.Link.Transmission
import SerialAta.Settings.Fields
import SerialAta.Settings.Load
import SerialAta.Proofs.Host.Programs
import SerialAta.Proofs.Host.Exchange
import SerialAta.Proofs.Host.Reachable
import SerialAta.Proofs.Host.WriteDma
import SerialAta.Proofs.Host.ReadDma
import SerialAta.Proofs.Host.Conversation
import SerialAta.Proofs.Host.Verdicts
import SerialAta.Proofs.Host.Replies
import SerialAta.Proofs.Bus.Ring
import SerialAta.Proofs.Bus.Beats
import SerialAta.Proofs.Bus.Answers
import SerialAta.Proofs.Frame.Checksum
import SerialAta.Proofs.Link.Damage
import SerialAta.Proofs.Drive.PayloadStream
import SerialAta.Proofs.Drive.Soundness
import SerialAta.Proofs.Bus.Queue
import SerialAta.Proofs.Bus.Transfers
import SerialAta.Proofs.Phy.Bursts
import SerialAta.Proofs.Drive.WakeUp
import SerialAta.Proofs.Link.Resynchronisation
import SerialAta.Proofs.Bus.Leftovers
import SerialAta.Proofs.Fis.Format
import SerialAta.Proofs.Host.BringUp
import SerialAta.Proofs.Host.BufferTransfers
import SerialAta.Proofs.Storage.DiskAccess
import SerialAta.Proofs.Host.CommandRegisters
import SerialAta.Proofs.Host.StepBounds
import SerialAta.Proofs.Host.ReadLoop
import SerialAta.Proofs.Frame.Remainder
import SerialAta.Proofs.Link.BitPairs
import SerialAta.Proofs.Bus.ByteSelects
import SerialAta.Proofs.Bus.TransferCost
import SerialAta.Proofs.Link.OpeningBurst
import SerialAta.Proofs.Bus.CallOrder
import SerialAta.Proofs.Bus.MemoryImages
import SerialAta.Proofs.Host.Setup
