import Harp.Device.LiveGuards
import Harp.Device.LostUpdate
import Harp.Device.TxnAtomic
import Harp.Host.PushComplete
import Harp.Host.Displaced
import Harp.Host.FenceSound
import Harp.Host.EventWire
import Harp.Core.CborFloat
import Harp.Core.GcComplete
import Harp.Core.RefMap
import Harp.Device.CasHistory
import Harp.Host.FetchComplete
import Harp.Device.BlockCut
import Harp.Device.SlotState
import Harp.Device.StuckNotes
import Harp.Device.EngineRun
import Harp.Device.PanicRun
import Harp.Device.NoteQueue
import Harp.Core.CborValue
import Harp.Core.ObjectCodec
import Harp.Core.LinkLemmas
import Harp.Host.ObjTransfer
import Harp.Device.Staging
import Harp.Device.AudioStart
import Harp.Device.MixPaths
import Harp.Device.RampRun
import Harp.Device.RecallRun
import Harp.Device.RangeRun
import Harp.Device.LoadAtomic
import Harp.Host.ParamsPayload
import Harp.Device.PacedFrames
import Harp.Core.AnonymizeLaw
import Harp.Core.StoreCrash
import Harp.Device.LiveCache
import Harp.Device.NoDangling
import Harp.Device.VoiceRamps
import Harp.Host.PullAudio
import Harp.Host.FxAligned
import Harp.Host.FxPacing
import Harp.Host.AudioSinks
import Harp.Lib.Interleave
import Harp.Host.RtpFrames
import Harp.Host.RtpRoundTrip
import Harp.Lib.Trail
import Harp.Host.Bundle
import Harp.Host.Recall
import Harp.Host.BundleReject
import Harp.Host.ReadOnlyHold
import Harp.Host.BundleReads
import Harp.Host.BundleSave
import Harp.Device.ArpSelect
import Harp.Core.CborFormed
import Harp.Host.BundleMeets
import Harp.Device.NewestKept
import Harp.Device.VoicePool
import Harp.Device.VoiceKeys
import Harp.Device.StepClock
import Harp.Device.ArpSteps
import Harp.Host.AutomationRun
import Harp.Host.UsbLink
import Harp.Host.ReconnectRun
import Harp.Host.DomainTags
import Harp.Core.Envelope
import Harp.Device.LiveNames
import Harp.Device.SessionLoop
import Harp.Device.SessionIsolation
import Harp.Host.TransportFeed
import Harp.Host.NoteVoiceMap
import Harp.Lib.Tally
import Harp.Host.AdmissionLedger
import Harp.Host.FxArming
import Harp.Host.RtpClock
import Harp.Host.FreerunRing
import Harp.Host.ClockFit
import Harp.Device.ParamMap
import Harp.Device.LogRing
import Harp.Host.BundleRoundTrip
import Harp.Device.OpRateLimit
import Harp.Core.Sha256Standard
import Harp.Host.AudioReader
import Harp.Host.ShellRings
