import EfiSshServer.Lib.Program
import EfiSshServer.Lib.Ring
import EfiSshServer.Lib.Incremental
import EfiSshServer.Lib.Terminal
import EfiSshServer.Lib.Display
import EfiSshServer.Lib.History
import EfiSshServer.Lib.Utf8
import EfiSshServer.Lib.Resources
import EfiSshServer.Lib.Requests
import EfiSshServer.Lib.BigEndian
import EfiSshServer.Lib.Calendar
import EfiSshServer.Lib.Cells
import EfiSshServer.Wire
import EfiSshServer.Conn
import EfiSshServer.Packet
import EfiSshServer.Kex
import EfiSshServer.Auth
import EfiSshServer.Channel
import EfiSshServer.Dispatch
import EfiSshServer.Input
import EfiSshServer.Api
import EfiSshServer.Step
import EfiSshServer.Refinement
import EfiSshServer.Receiver
import EfiSshServer.Runs
import EfiSshServer.Scenario
import EfiSshServer.VersionLine
import EfiSshServer.Gate
import EfiSshServer.BeforeOpen
import EfiSshServer.Recipient
import EfiSshServer.AuthBound
import EfiSshServer.Decoding
import EfiSshServer.Chunking
import EfiSshServer.OneShot
import EfiSshServer.Framing
import EfiSshServer.LinkInvariant
import EfiSshServer.Numbering
import EfiSshServer.Conversation
import EfiSshServer.Flow
import EfiSshServer.Inbound
import EfiSshServer.CreditReturn
import EfiSshServer.Outbound
import EfiSshServer.Writing
import EfiSshServer.CloseSilence
import EfiSshServer.KexSilence
import EfiSshServer.Reading
import EfiSshServer.Negotiation
import EfiSshServer.Guess
import EfiSshServer.Credentials
import EfiSshServer.PollEnd
import EfiSshServer.Decoder
import EfiSshServer.KeySequences
import EfiSshServer.Keys
import EfiSshServer.KeyItems
import EfiSshServer.Utf8Input
import EfiSshServer.Echo
import EfiSshServer.Mirror
import EfiSshServer.Typing
import EfiSshServer.LocalKeyboard
import EfiSshServer.BreakNotice
import EfiSshServer.HalfClose
import EfiSshServer.ScreenBounds
import EfiSshServer.Rendering
import EfiSshServer.ConsoleInvariant
import EfiSshServer.Page
import EfiSshServer.Machine
import EfiSshServer.Launch
import EfiSshServer.Restoration
import EfiSshServer.Candidates
import EfiSshServer.Codec
import EfiSshServer.Mpint
import EfiSshServer.Transport
import EfiSshServer.CommandLine
import EfiSshServer.Tokeniser
import EfiSshServer.Port
import EfiSshServer.Entropy
import EfiSshServer.WallClock
import EfiSshServer.Memmove
import EfiSshServer.EscBuffer
import EfiSshServer.Print
import EfiSshServer.BootPath
import EfiSshServer.RxBounds
import EfiSshServer.KexSteps
import EfiSshServer.ClientVersion
import EfiSshServer.ExchangeHash
import EfiSshServer.KeySchedule
import EfiSshServer.OutStream
import EfiSshServer.RemoteScreen
import EfiSshServer.Network
import EfiSshServer.SocketLife
import EfiSshServer.SocketStream
import EfiSshServer.KeyAgreement
