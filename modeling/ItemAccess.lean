import ItemAccess.Attempt
import ItemAccess.Failure.Complaint
import ItemAccess.Failure.Exception
import ItemAccess.Failure.Failure
import ItemAccess.Failure.Fault
import ItemAccess.Json.Basic
import ItemAccess.Json.Reader
import ItemAccess.Json.Writer
import ItemAccess.Machine.Access
import ItemAccess.Machine.Build
import ItemAccess.Machine.Dispatch
import ItemAccess.Machine.Index
import ItemAccess.Machine.Items
import ItemAccess.Machine.State
import ItemAccess.Machine.Text
import ItemAccess.Number.Binary64
import ItemAccess.Number.Layout
import ItemAccess.Number.Shortest
import ItemAccess.Object.Body
import ItemAccess.Object.Key
import ItemAccess.Object.Position
import ItemAccess.Object.Value
import ItemAccess.Proofs.Attempt
import ItemAccess.Proofs.ByteReads
import ItemAccess.Proofs.CapabilityRules
import ItemAccess.Proofs.Client
import ItemAccess.Proofs.Delegate
import ItemAccess.Proofs.DictConstruction
import ItemAccess.Proofs.DirectAccess
import ItemAccess.Proofs.FailedAccess
import ItemAccess.Proofs.FaultFreedom
import ItemAccess.Proofs.FloatTexts
import ItemAccess.Proofs.Hashability
import ItemAccess.Proofs.IndexArithmetic
import ItemAccess.Proofs.Json.Spelling
import ItemAccess.Proofs.KeyAndPosition
import ItemAccess.Proofs.KeyEquality
import ItemAccess.Proofs.Lasting
import ItemAccess.Proofs.LaterTypes
import ItemAccess.Proofs.LayoutIndependence
import ItemAccess.Proofs.ListSequence
import ItemAccess.Proofs.LiteralReading
import ItemAccess.Proofs.LooserLimits
import ItemAccess.Proofs.Machine.Access
import ItemAccess.Proofs.Machine.Build
import ItemAccess.Proofs.Machine.Dicts
import ItemAccess.Proofs.Machine.Discipline
import ItemAccess.Proofs.Machine.Frame
import ItemAccess.Proofs.Machine.Index
import ItemAccess.Proofs.Machine.Inserted
import ItemAccess.Proofs.Machine.Items
import ItemAccess.Proofs.Machine.Likeness
import ItemAccess.Proofs.Machine.Lists
import ItemAccess.Proofs.Machine.Lookup
import ItemAccess.Proofs.Machine.Serving
import ItemAccess.Proofs.Machine.State
import ItemAccess.Proofs.Machine.Text
import ItemAccess.Proofs.Machine.Turns
import ItemAccess.Proofs.Number.Decimal
import ItemAccess.Proofs.Number.Digits
import ItemAccess.Proofs.Number.Exact
import ItemAccess.Proofs.Number.Shortest
import ItemAccess.Proofs.Number.Truncation
import ItemAccess.Proofs.Object.Position
import ItemAccess.Proofs.OrderedDict
import ItemAccess.Proofs.PendingErrors
import ItemAccess.Proofs.Reachability
import ItemAccess.Proofs.ReferenceCounts
import ItemAccess.Proofs.RefusedContainer
import ItemAccess.Proofs.RejectedConstruction
import ItemAccess.Proofs.Relates
import ItemAccess.Proofs.ReleaseConfluence
import ItemAccess.Proofs.Script.HostSlot
import ItemAccess.Proofs.SharedByteStrings
import ItemAccess.Proofs.Slot.Registration
import ItemAccess.Proofs.Slot.Registry
import ItemAccess.Proofs.Store.Contents
import ItemAccess.Proofs.Store.Equality
import ItemAccess.Proofs.Store.Gain
import ItemAccess.Proofs.Store.History
import ItemAccess.Proofs.Store.Keys
import ItemAccess.Proofs.Store.Ledger
import ItemAccess.Proofs.Store.Metering
import ItemAccess.Proofs.Store.Moves
import ItemAccess.Proofs.Store.Nesting
import ItemAccess.Proofs.Store.Reach
import ItemAccess.Proofs.Store.ReleaseOrder
import ItemAccess.Proofs.Store.Retype
import ItemAccess.Proofs.Store.SharedBytes
import ItemAccess.Proofs.Store.Slots
import ItemAccess.Proofs.Store.Sound
import ItemAccess.Proofs.Store.Walk
import ItemAccess.Proofs.StoreAccounts
import ItemAccess.Proofs.StoredKeys
import ItemAccess.Proofs.SuccessfulRead
import ItemAccess.Proofs.Tandem.Access
import ItemAccess.Proofs.Tandem.Build
import ItemAccess.Proofs.Tandem.Items
import ItemAccess.Proofs.Tandem.Keys
import ItemAccess.Proofs.Tandem.Limits
import ItemAccess.Proofs.Tandem.Machine
import ItemAccess.Proofs.Tandem.Renaming
import ItemAccess.Proofs.Tandem.Requests
import ItemAccess.Proofs.Tandem.Store
import ItemAccess.Proofs.TraceEvents
import ItemAccess.Proofs.TracerViews
import ItemAccess.Proofs.Unfolding
import ItemAccess.Proofs.WrittenDocuments
import ItemAccess.Script.HostSlot
import ItemAccess.Script.Run
import ItemAccess.Script.Step
import ItemAccess.Settings
import ItemAccess.Slot.Registry
import ItemAccess.Slot.Table
import ItemAccess.Store.Hash
import ItemAccess.Store.Heap
import ItemAccess.Store.Meter
import ItemAccess.Store.Release
import ItemAccess.Text.ByteLiteral
import ItemAccess.Text.Column
import ItemAccess.Text.Hex
import ItemAccess.Trace.Event
import ItemAccess.Trace.Log
import ItemAccess.Trace.Profile
import ItemAccess.Trace.Recording
import ItemAccess.Trace.Tracer
