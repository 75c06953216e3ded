import MBotTeleop.Driver.Exact
import MBotTeleop.Driver.InvalidInput
import MBotTeleop.EndToEnd
import MBotTeleop.Driver.Interrupt
import MBotTeleop.Driver.Main
import MBotTeleop.Ipc.Channels
import MBotTeleop.Ipc.Copies
import MBotTeleop.Ipc.Deaf
import MBotTeleop.Ipc.Streams
import MBotTeleop.Ipc.Timeout
import MBotTeleop.Ipc.Waiting
import MBotTeleop.MBot.Commands
import MBotTeleop.MBot.Lifecycle
import MBotTeleop.MBot.Line
import MBotTeleop.MBot.Structs
import MBotTeleop.Msg.Growth
import MBotTeleop.Msg.Laws
import MBotTeleop.Teleop.EndOfInput
import MBotTeleop.Teleop.Interrupt
import MBotTeleop.Typed
import MBotTeleop.Util.Frequency
import MBotTeleop.Util.Numbers
import MBotTeleop.Util.Printing
import MBotTeleop.Util.Provenance
import MBotTeleop.Util.Pacing
import MBotTeleop.Util.Rate
