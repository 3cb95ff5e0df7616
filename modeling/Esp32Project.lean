import Esp32Project.Lib.Reach
import Esp32Project.EasyMem.Runs
import Esp32Project.EasyMem.Requests
import Esp32Project.EasyHeap.Realloc
import Esp32Project.Flash.Write
import Esp32Project.Flash.Read
import Esp32Project.Flash.Spiffs
import Esp32Project.Console.Inject
import Esp32Project.Net.Connecting
import Esp32Project.Net.Lifetime
import Esp32Project.Net.Released
import Esp32Project.Net.Receiving
import Esp32Project.Net.Accepting
import Esp32Project.Net.Resolve
import Esp32Project.Ftp.Lines
import Esp32Project.Ftp.Rename
import Esp32Project.Ftp.Backoff
import Esp32Project.Ftp.Transfers
import Esp32Project.Ftp.Arguments
import Esp32Project.Ftp.Port
import Esp32Project.Ftp.Paths
import Esp32Project.Task.Bindings
import Esp32Project.Task.Wakeups
import Esp32Project.Nvs.Keys
import Esp32Project.Partition.Growth
import Esp32Project.File.Reading
import Esp32Project.I2c.Transport
import Esp32Project.Utils.Base64
import Esp32Project.Mqtt.Bounds
import Esp32Project.Mqtt.Clients
import Esp32Project.Mqtt.RoundTrip
import Esp32Project.Mqtt.Answers
import Esp32Project.Esp8266.Uart
import Esp32Project.Esp8266.Hal
import Esp32Project.Esp8266.PwmMade
import Esp32Project.Esp8266.Waveform
import Esp32Project.Esp8266.ChannelConfig
import Esp32Project.Tmr.Contract
import Esp32Project.Tmr.Rtc
import Esp32Project.Gpio.Callbacks
import Esp32Project.Ota.Update
import Esp32Project.Lpeg.Correct
import Esp32Project.AppTask.Controller
